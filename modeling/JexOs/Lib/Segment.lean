import Mathlib.Data.List.Nodup

/-!
# Linked lists with data

A segment of a linked list, with the data of its cells: `cell a b n` says that at `a` there is `b` with successor
`n`. A change of the store is described by the cells it keeps.
-/

namespace Linked

open List

variable {α β : Type} {cell cell' : α → β → α → Prop} {head last : α} {q pre post : List (α × β)}

def Seg (cell : α → β → α → Prop) : α → List (α × β) → α → Prop
  | head, [], last => head = last
  | head, (a, b) :: q, last => head = a ∧ ∃ n, cell a b n ∧ Seg cell n q last

theorem seg_append : Seg cell head (pre ++ post) last ↔
    ∃ mid, Seg cell head pre mid ∧ Seg cell mid post last := by
  induction pre generalizing head with
  | nil =>
    constructor
    · intro h
      exact ⟨head, rfl, h⟩
    · rintro ⟨mid, rfl, h⟩
      exact h
  | cons p pre ih =>
    constructor
    · rintro ⟨hhead, n, hcell, hrest⟩
      obtain ⟨mid, hpre, hpost⟩ := ih.mp hrest
      exact ⟨mid, ⟨hhead, n, hcell, hpre⟩, hpost⟩
    · rintro ⟨mid, ⟨hhead, n, hcell, hpre⟩, hpost⟩
      exact ⟨hhead, n, hcell, ih.mpr ⟨mid, hpre, hpost⟩⟩

theorem Seg.congr (h : Seg cell head q last)
    (hkeep : ∀ p ∈ q, ∀ n, cell p.1 p.2 n → cell' p.1 p.2 n) : Seg cell' head q last := by
  induction q generalizing head with
  | nil => exact h
  | cons p q ih =>
    obtain ⟨hhead, n, hcell, hrest⟩ := h
    exact ⟨hhead, n, hkeep p mem_cons_self n hcell, ih hrest fun x hx => hkeep x (mem_cons_of_mem p hx)⟩

theorem Seg.head_eq (h : Seg cell head q last) : head = (q.map Prod.fst).headD last := by
  cases q with
  | nil => exact h
  | cons p q => exact h.1

theorem Seg.unique {q' : List (α × β)} (h : Seg cell head q last) (h' : Seg cell head q' last)
    (hq : ∀ p ∈ q, p.1 ≠ last) (hq' : ∀ p ∈ q', p.1 ≠ last)
    (hcell : ∀ a b n b' n', cell a b n → cell a b' n' → b = b' ∧ n = n') : q = q' := by
  induction q generalizing head q' with
  | nil =>
    cases q' with
    | nil => rfl
    | cons p q' => exact absurd (h'.1.symm.trans h) (hq' p mem_cons_self)
  | cons p q ih =>
    cases q' with
    | nil => exact absurd (h.1.symm.trans h') (hq p mem_cons_self)
    | cons p' q' =>
      obtain ⟨rfl, n, hn, hrest⟩ := h
      obtain ⟨haddr, n', hn', hrest'⟩ := h'
      obtain ⟨hdata, rfl⟩ := hcell p.1 p.2 n p'.2 n' hn (haddr ▸ hn')
      rw [Prod.ext haddr hdata, ih hrest hrest' (fun x hx => hq x (mem_cons_of_mem _ hx))
        fun x hx => hq' x (mem_cons_of_mem _ hx)]

theorem Seg.mid {a : α} {b : β} (h : Seg cell head (q ++ (a, b) :: post) last) :
    cell a b ((post.map Prod.fst).headD last) ∧ Seg cell ((post.map Prod.fst).headD last) post last := by
  obtain ⟨mid, -, -, n, hcell, hpost⟩ := seg_append.mp h
  rw [← hpost.head_eq]
  exact ⟨hcell, hpost⟩

theorem Seg.update {a : α} {b b' : β} (h : Seg cell head (pre ++ (a, b) :: post) last)
    (hnew : ∀ n, cell a b n → cell' a b' n)
    (hkeep : ∀ p ∈ pre ++ post, ∀ n, cell p.1 p.2 n → cell' p.1 p.2 n) :
    Seg cell' head (pre ++ (a, b') :: post) last := by
  obtain ⟨mid, hpre, hmid, n, hcell, hpost⟩ := seg_append.mp h
  refine seg_append.mpr ⟨mid, hpre.congr fun p hp => hkeep p (by simp [hp]), hmid, n, hnew n hcell,
    hpost.congr fun p hp => hkeep p (by simp [hp])⟩

theorem Seg.unlink {a p : α} {b c : β} (h : Seg cell head (pre ++ (p, c) :: (a, b) :: post) last)
    (hpred : ∀ n, cell a b n → cell' p c n)
    (hkeep : ∀ x ∈ pre ++ post, ∀ n, cell x.1 x.2 n → cell' x.1 x.2 n) :
    Seg cell' head (pre ++ (p, c) :: post) last := by
  obtain ⟨mid, hpre, hmid, -, -, -, n, hcell, hpost⟩ := seg_append.mp h
  refine seg_append.mpr ⟨mid, hpre.congr fun x hx => hkeep x (by simp [hx]), hmid, n, hpred n hcell,
    hpost.congr fun x hx => hkeep x (by simp [hx])⟩

theorem Seg.snoc {a p : α} {b c : β} (h : Seg cell head (pre ++ [(p, c)]) last)
    (hpred : cell' p c a) (hnew : cell' a b last) (hkeep : ∀ x ∈ pre, ∀ n, cell x.1 x.2 n → cell' x.1 x.2 n) :
    Seg cell' head (pre ++ [(p, c), (a, b)]) last := by
  obtain ⟨mid, hpre, hmid, -⟩ := seg_append.mp h
  exact seg_append.mpr ⟨mid, hpre.congr hkeep, hmid, a, hpred, rfl, last, hnew, rfl⟩

end Linked
