import JexOs.UserStack

/-!
# What a program finds on its stack

A string without room is written over the one above it, so the stack is in order exactly if there is room for
everything.
-/

namespace JexOs.UserStack

open ByteMem List Function
open Elf (word32)

section Stores

variable {m : Mem} {ws vs : List Write} {a x : Nat} {bs : List UInt8}

theorem after_append : after m (ws ++ vs) = after (after m ws) vs := foldl_append ..

theorem after_of_not_mem (h : ∀ w ∈ ws, w.1 ≠ x) : after m ws x = m x := by
  induction ws generalizing m with
  | nil => rfl
  | cons w ws ih =>
    have hrest : after (Function.update m w.1 w.2) ws x = Function.update m w.1 w.2 x :=
      ih fun v hv => h v (mem_cons_of_mem _ hv)
    exact hrest.trans (update_of_ne (h w mem_cons_self).symm ..)

theorem mem_writeBytes {w : Write} :
    w ∈ writeBytes a bs ↔ ∃ k, k < bs.length ∧ w = (word32 (a + k), bs.getD k 0) := by
  unfold writeBytes
  rw [mem_map]
  constructor
  · rintro ⟨⟨b, k⟩, hmem, rfl⟩
    obtain ⟨hk, hb⟩ := mem_zipIdx' hmem
    refine ⟨k, hk, ?_⟩
    rw [getD_eq_getElem _ _ hk, ← hb]
  · rintro ⟨k, hk, rfl⟩
    refine ⟨(bs.getD k 0, k), ?_, rfl⟩
    rw [getD_eq_getElem _ _ hk]
    exact mk_mem_zipIdx_iff_getElem?.mpr (getElem?_eq_getElem hk)

theorem writeBytes_concat (b : UInt8) :
    writeBytes a (bs ++ [b]) = writeBytes a bs ++ [(word32 (a + bs.length), b)] := by
  unfold writeBytes
  rw [zipIdx_append, map_append]
  simp

theorem after_writeBytes (hlast : a + bs.length ≤ 4294967296) :
    after m (writeBytes a bs) = blit m a bs.length fun k => bs.getD k 0 := by
  induction bs using List.reverseRecOn with
  | nil =>
    rw [length_nil, blit_zero]
    rfl
  | append_singleton bs b ih =>
    rw [length_append, length_singleton] at hlast ⊢
    rw [writeBytes_concat, after_append, ih (by omega)]
    funext x
    have hplace : word32 (a + bs.length) = a + bs.length := Nat.mod_eq_of_lt (by omega)
    rw [hplace]
    change Function.update (blit m a bs.length fun k => bs.getD k 0) (a + bs.length) b x = _
    by_cases hx : x = a + bs.length
    · rw [hx, update_self, blit_add (by omega)]
      simp
    · rw [update_of_ne hx]
      unfold blit
      by_cases hin : a ≤ x ∧ x < a + bs.length
      · rw [if_pos hin, if_pos (by omega)]
        exact (getD_append _ _ _ _ (by omega)).symm
      · rw [if_neg hin, if_neg (by omega)]

end Stores

def OnStack (ws : List Write) : Prop := ∀ w ∈ ws, userStackLow ≤ w.1 ∧ w.1 < userStackBase

def CString (m : Mem) (a : Nat) (s : List UInt8) : Prop := ∀ k ≤ s.length, m (a + k) = s.getD k 0

def PointerArray (m : Mem) : Nat → List Nat → Prop
  | a, [] => load32 m a = 0
  | a, p :: ps => load32 m a = p ∧ PointerArray m (a + 4) ps

theorem getD_terminated {s : List UInt8} {k : Nat} (hk : k ≤ s.length) : (s ++ [0]).getD k 0 = s.getD k 0 := by
  by_cases hlt : k < s.length
  · exact getD_append _ _ _ _ hlt
  · obtain rfl : k = s.length := by omega
    simp

def room (arg : List UInt8) : Nat := (arg.length + 4) / 4 * 4

def Fits (top : Nat) (arg : List UInt8) : Prop := userStackLow + room arg ≤ top

instance (top : Nat) (arg : List UInt8) : Decidable (Fits top arg) := inferInstanceAs (Decidable (_ ≤ _))

/-- Places with the strings at them, a copy for every argument, or an empty string for one that does
not fit below the last. -/
def Copies : Nat → List (List UInt8) → List (Nat × List UInt8) → Prop
  | _, [], [] => True
  | top, arg :: args, (p, s) :: strings =>
    (s = arg ∨ s = [] ∧ ¬ Fits top arg) ∧ Copies p args strings
  | _, _, _ => False

def Apart (s s' : Nat × List UInt8) : Prop :=
  s.1 + s.2.length < s'.1 ∨ s'.1 + s'.2.length < s.1

/-- What `main` finds at `esp`: the number of arguments, a pointer to the array of pointers to them,
and the strings. -/
def Handed (m : Mem) (esp : Nat) (args : List (List UInt8)) : Prop :=
  ∃ array strings, load32 m esp = args.length ∧ load32 m (esp + 4) = array ∧
    PointerArray m array (strings.map Prod.fst) ∧ (∀ s ∈ strings, CString m s.1 s.2) ∧
    Copies userStackBase args strings ∧ strings.Pairwise Apart ∧
    ∀ s ∈ strings, s.1 + s.2.length < array ∨ array + 4 * (strings.length + 1) ≤ s.1

def spots : Nat → List (List UInt8) → List Nat
  | _, [] => []
  | esp, arg :: args => spot esp arg :: spots (spot esp arg) args

def bottom (esp : Nat) (args : List (List UInt8)) : Nat := args.foldl spot esp

def copies : Nat → List (List UInt8) → List Write
  | _, [] => []
  | esp, arg :: args => strcpy (spot esp arg) arg ++ copies (spot esp arg) args

/-- The room of the strings, the pointers with their null, the address of the array and the count. -/
def need (args : List (List UInt8)) : Nat := (args.map room).sum + 4 * (args.length + 3)

section Loops

variable {s : Setup} {i n : Nat} {arg : List UInt8} {args : List (List UInt8)}

theorem length_spots (esp : Nat) : (spots esp args).length = args.length := by
  induction args generalizing esp with
  | nil => rfl
  | cons arg args ih => simp only [spots, length_cons, ih]

theorem pushStrings_spec : (pushStrings (args.map some) i s).esp = bottom s.esp args ∧
      (pushStrings (args.map some) i s).actualArgc = s.actualArgc + args.length ∧
      (pushStrings (args.map some) i s).writes = s.writes ++ copies s.esp args ∧
      (∀ j < i, (pushStrings (args.map some) i s).argvPointers j = s.argvPointers j) ∧ ∀ j < args.length,
        (pushStrings (args.map some) i s).argvPointers (i + j) = (spots s.esp args).getD j 0 := by
  induction args generalizing i s with
  | nil => exact ⟨rfl, rfl, (append_nil _).symm, fun _ _ => rfl, nofun⟩
  | cons arg args ih =>
    obtain ⟨hesp, hcount, hwrites, hlow, hpointers⟩ := @ih (pushString s i arg) (i + 1)
    refine ⟨hesp, ?_, ?_, fun j hj => ?_, fun j hj => ?_⟩
    · have hnext : (pushString s i arg).actualArgc = s.actualArgc + 1 := rfl
      rw [map_cons, pushStrings, hcount, length_cons, hnext]
      omega
    · rw [map_cons, pushStrings, hwrites, copies, ← append_assoc]
      rfl
    · rw [map_cons, pushStrings, hlow j (by omega)]
      exact update_of_ne hj.ne ..
    · cases j with
      | zero =>
        exact (hlow i (by omega)).trans (update_self ..)
      | succ j =>
        rw [length_cons] at hj
        have hnext := hpointers j (by omega)
        rwa [show i + 1 + j = i + (j + 1) by omega] at hnext

theorem argvPointers_map :
    (List.range args.length).map (pushStrings (args.map some) 0 s).argvPointers = spots s.esp args := by
  obtain ⟨-, -, -, -, hpointers⟩ := @pushStrings_spec s 0 args
  refine ext_getElem (by simp [length_spots]) fun j hj hj' => ?_
  have hvalue := hpointers j (by simpa using hj)
  rw [Nat.zero_add, getD_eq_getElem _ _ hj'] at hvalue
  simpa using hvalue

theorem below_eq {esp len : Nat} (hlen : len ≤ esp) (hesp : esp < 4294967296) : below esp len = esp - len := by
  unfold below word32
  omega

theorem PointerArray.congr {m m' : Mem} {a : Nat} {ps : List Nat} (h : PointerArray m a ps)
    (hsame : ∀ x, a ≤ x → m' x = m x) : PointerArray m' a ps := by
  induction ps generalizing a with
  | nil => exact (load32_congr fun k hk _ => hsame k hk).trans h
  | cons p ps ih =>
    obtain ⟨hp, hrest⟩ := h
    exact ⟨(load32_congr fun k hk _ => hsame k hk).trans hp, ih hrest fun x hx => hsame x (by omega)⟩

theorem PointerArray.unique {m : Mem} {a : Nat} {ps qs : List Nat} (h : PointerArray m a ps)
    (h' : PointerArray m a qs) (hlength : ps.length = qs.length) : ps = qs := by
  induction ps generalizing a qs with
  | nil => exact (eq_nil_of_length_eq_zero hlength.symm).symm
  | cons p ps ih =>
    obtain ⟨q, qs, rfl⟩ := exists_cons_of_length_eq_add_one hlength.symm
    rw [← h.1, ← h'.1, ih h.2 h'.2 (by simpa using hlength)]

section Words

variable {m : Mem} {s : Setup} {n v : Nat} {ps : List Nat}

theorem after_pushWord (hlow : 4 ≤ s.esp) (hhigh : s.esp < 4294967296) : (pushWord s v).esp = s.esp - 4 ∧
      after m (pushWord s v).writes = store32 (after m s.writes) (s.esp - 4) v := by
  have hesp := below_eq hlow hhigh
  refine ⟨hesp, ?_⟩
  unfold pushWord
  rw [hesp, after_append, after_writeBytes (by simp; omega)]
  unfold store32
  funext x
  unfold blit
  rw [length_map, length_range]
  split
  · next hin =>
      have hlength : x - (s.esp - 4) < ((List.range 4).map (byteOf v)).length := by
        rw [length_map, length_range]
        omega
      calc ((List.range 4).map (byteOf v)).getD (x - (s.esp - 4)) 0
          = ((List.range 4).map (byteOf v))[x - (s.esp - 4)] := getD_eq_getElem _ _ hlength
        _ = byteOf v (x - (s.esp - 4)) := by rw [getElem_map, getElem_range]
  · rfl

theorem pushPointers_esp (hlow : 4 * n ≤ s.esp) (hhigh : s.esp < 4294967296) :
    (pushPointers n s).esp = s.esp - 4 * n := by
  induction n generalizing s with
  | zero => rfl
  | succ n ih =>
    have hnext : (pushWord s (s.argvPointers n)).esp = s.esp - 4 := below_eq (by omega) hhigh
    have hrest := @ih (pushWord s (s.argvPointers n)) (by omega) (by omega)
    rw [pushPointers, hrest]
    omega

theorem after_pushPointers (hlow : 4 * n ≤ s.esp) (hhigh : s.esp < 4294967296)
    (hps : ∀ j < n, s.argvPointers j < 4294967296) (harray : PointerArray (after m s.writes) s.esp ps) :
    PointerArray (after m (pushPointers n s).writes) (s.esp - 4 * n)
      ((List.range n).map s.argvPointers ++ ps) ∧
      ∀ x, s.esp ≤ x → after m (pushPointers n s).writes x = after m s.writes x := by
  induction n generalizing s ps with
  | zero => exact ⟨harray, fun _ _ => rfl⟩
  | succ n ih =>
    obtain ⟨hesp, hafter⟩ := after_pushWord (m := m) (v := s.argvPointers n) (show 4 ≤ s.esp by omega) hhigh
    have hkeep : ∀ x, s.esp ≤ x →
        after m (pushWord s (s.argvPointers n)).writes x = after m s.writes x := by
      intro x hx
      rw [hafter]
      exact blit_of_ge (by omega)
    have hnext : PointerArray (after m (pushWord s (s.argvPointers n)).writes) (s.esp - 4)
        (s.argvPointers n :: ps) := by
      refine ⟨by rw [hafter]; exact load32_store32 (hps n (Nat.lt_succ_self n)), ?_⟩
      rw [show s.esp - 4 + 4 = s.esp by omega]
      exact harray.congr hkeep
    obtain ⟨harray', hkeep'⟩ := @ih (pushWord s (s.argvPointers n)) (s.argvPointers n :: ps)
      (by rw [hesp]; omega) (by rw [hesp]; omega) (fun j hj => hps j (by omega)) (hesp ▸ hnext)
    rw [hesp] at harray' hkeep'
    refine ⟨?_, fun x hx => ?_⟩
    · rw [range_succ, map_append, append_assoc, show s.esp - 4 * (n + 1) = s.esp - 4 - 4 * n by omega]
      exact harray'
    · exact (hkeep' x (by omega)).trans (hkeep x hx)

end Words

theorem pushPointers_writes (n : Nat) (s : Setup) : ∃ ws, (pushPointers n s).writes = s.writes ++ ws := by
  induction n generalizing s with
  | zero => exact ⟨[], (append_nil _).symm⟩
  | succ n ih =>
    obtain ⟨ws, hws⟩ := ih (pushWord s (s.argvPointers n))
    exact ⟨_, hws.trans (append_assoc ..)⟩

theorem pushPointers_fixed : (pushPointers n s).argvPointers = s.argvPointers ∧
    (pushPointers n s).actualArgc = s.actualArgc := by
  induction n generalizing s with
  | zero => exact ⟨rfl, rfl⟩
  | succ n ih => exact @ih (pushWord s (s.argvPointers n))

end Loops

section Frame

variable {m : Mem} {args : List (List UInt8)} {junk : Nat → Nat} {e : Nat}

theorem spot_lt (esp : Nat) (arg : List UInt8) : spot esp arg < 4294967296 := by
  unfold spot
  split
  · exact Nat.mod_lt _ (by decide)
  · exact Nat.mod_lt _ (by decide)

theorem spots_lt : ∀ p ∈ spots e args, p < 4294967296 := by
  induction args generalizing e with
  | nil => exact nofun
  | cons arg args ih =>
    intro p hp
    rcases mem_cons.mp hp with rfl | hp
    · exact spot_lt e arg
    · exact ih p hp

theorem setupUserStack_eq : ∃ s : Setup, s.esp = bottom userStackBase (args.take 16) ∧
      s.actualArgc = (args.take 16).length ∧ s.writes = copies userStackBase (args.take 16) ∧
      (List.range (args.take 16).length).map s.argvPointers = spots userStackBase (args.take 16) ∧
      setupUserStack userStackBase (args.map some) junk =
        let t := pushPointers s.actualArgc (pushWord s 0)
        pushWord (pushWord t t.esp) s.actualArgc := by
  obtain ⟨hesp, hcount, hwrites, -, -⟩ := @pushStrings_spec
    { esp := userStackBase
      actualArgc := 0
      argvPointers := junk
      writes := [] } 0 (args.take 16)
  refine ⟨_, hesp, by rw [hcount, Nat.zero_add], hwrites, argvPointers_map, ?_⟩
  unfold setupUserStack
  rw [← map_take]
  dsimp only
  have hfixed : ∀ t : Setup, ∀ n v, (pushWord (pushPointers n t) v).actualArgc = t.actualArgc :=
    fun t n v => pushPointers_fixed.2
  rw [hfixed]
  rfl

theorem setup_frame (he : e = bottom userStackBase (args.take 16)) (hhigh : e ≤ userStackBase)
    (hlow : userStackLow + 4 * ((args.take 16).length + 3) ≤ e) :
    let t := setupUserStack userStackBase (args.map some) junk
    let f := after m t.writes
    t.esp = e - 4 * ((args.take 16).length + 3) ∧ load32 f t.esp = (args.take 16).length ∧
      load32 f (t.esp + 4) = t.esp + 8 ∧
      PointerArray f (t.esp + 8) (spots userStackBase (args.take 16)) ∧
      ∀ x, e ≤ x → f x = after m (copies userStackBase (args.take 16)) x := by
  have hbase : userStackBase = 8388608 := rfl
  obtain ⟨s, hesp, hcount, hwrites, hpointers, heq⟩ := @setupUserStack_eq args junk
  generalize hn : (args.take 16).length = n at *
  obtain ⟨h₁, hafter₁⟩ := after_pushWord (m := m) (s := s) (v := 0) (by omega) (by omega)
  have hnull : PointerArray (after m (pushWord s 0).writes) (pushWord s 0).esp [] := by
    rw [hafter₁, h₁]
    exact load32_store32 (by decide)
  have hsmall : ∀ j < n, s.argvPointers j < 4294967296 := by
    intro j hj
    have hmem : s.argvPointers j ∈ (List.range n).map s.argvPointers := mem_map_of_mem (mem_range.mpr hj)
    exact spots_lt _ (hpointers ▸ hmem)
  have h₂ := pushPointers_esp (n := n) (s := pushWord s 0) (by omega) (by omega)
  obtain ⟨harray, hkeep₂⟩ :=
    after_pushPointers (m := m) (n := n) (s := pushWord s 0) (by omega) (by omega) hsmall hnull
  rw [append_nil, show (pushWord s 0).argvPointers = s.argvPointers from rfl, hpointers] at harray
  generalize ht : pushPointers n (pushWord s 0) = t at *
  obtain ⟨h₃, hafter₃⟩ := after_pushWord (m := m) (s := t) (v := t.esp) (by omega) (by omega)
  obtain ⟨h₄, hafter₄⟩ := after_pushWord (m := m) (s := pushWord t t.esp) (v := n) (by omega) (by omega)
  rw [hcount, ht] at heq
  rw [heq]
  dsimp only
  have hword : e - 4 * (n + 3) = t.esp - 4 - 4 := by omega
  have hthree : (pushWord t t.esp).esp - 4 = t.esp - 4 - 4 := by rw [h₃]
  rw [h₄, hafter₄, hafter₃, hthree]
  refine ⟨hword.symm, load32_store32 (by omega), ?_, ?_, fun x hx => ?_⟩
  · rw [load32_store32_of_disjoint (by omega), show t.esp - 4 - 4 + 4 = t.esp - 4 by omega,
      load32_store32 (by omega)]
    omega
  · rw [show t.esp - 4 - 4 + 8 = (pushWord s 0).esp - 4 * n by omega]
    refine harray.congr fun x hx => ?_
    exact (blit_of_ge (by omega)).trans (blit_of_ge (by omega))
  · refine (blit_of_ge (by omega)).trans ((blit_of_ge (by omega)).trans ((hkeep₂ x (by omega)).trans ?_))
    rw [hafter₁, ← hwrites]
    exact blit_of_ge (by omega)

end Frame

section Bounds

variable {s : Setup} {n v p e : Nat} {arg : List UInt8} {args : List (List UInt8)} {ws vs : List Write}

theorem onStack_append : OnStack (ws ++ vs) ↔ OnStack ws ∧ OnStack vs := forall_mem_append

theorem onStack_writeBytes {a : Nat} {bs : List UInt8} (ha : a < 4294967296) (hne : bs ≠ []) :
    OnStack (writeBytes a bs) ↔ userStackLow ≤ a ∧ a + bs.length ≤ userStackBase := by
  have hbase : userStackBase = 8388608 := rfl
  have hpos : 0 < bs.length := length_pos_iff.mpr hne
  constructor
  · intro h
    have hplace : ∀ k < bs.length, userStackLow ≤ a + k ∧ a + k < userStackBase := by
      intro k hk
      induction k with
      | zero =>
        have hfirst := h _ (mem_writeBytes.mpr ⟨0, hk, rfl⟩)
        unfold word32 at hfirst
        omega
      | succ k ih =>
        have hnext := h _ (mem_writeBytes.mpr ⟨k + 1, hk, rfl⟩)
        unfold word32 at hnext
        omega
    have hfirst := hplace 0 hpos
    have hlast := hplace (bs.length - 1) (by omega)
    omega
  · rintro ⟨hlow, hhigh⟩ w hw
    obtain ⟨k, hk, rfl⟩ := mem_writeBytes.mp hw
    unfold word32
    omega

theorem onStack_strcpy (hp : p < 4294967296) :
    OnStack (strcpy p arg) ↔ userStackLow ≤ p ∧ p + arg.length < userStackBase := by
  unfold strcpy
  rw [onStack_writeBytes hp (by simp), length_append, length_singleton]
  omega

theorem onStack_pushWord (hesp : s.esp ≤ userStackBase) :
    OnStack (pushWord s v).writes ↔ OnStack s.writes ∧ userStackLow + 4 ≤ s.esp := by
  have hbase : userStackBase = 8388608 := rfl
  have hlt : below s.esp 4 < 4294967296 := Nat.mod_lt _ (by decide)
  unfold pushWord
  rw [onStack_append, onStack_writeBytes hlt (by simp), length_map, length_range]
  refine and_congr_right fun _ => ?_
  unfold below word32
  omega

theorem onStack_pushPointers (hlow : userStackLow ≤ s.esp) (hesp : s.esp ≤ userStackBase) :
    OnStack (pushPointers n s).writes ↔ OnStack s.writes ∧ userStackLow + 4 * n ≤ s.esp := by
  have hbase : userStackBase = 8388608 := rfl
  induction n generalizing s with
  | zero => exact (and_iff_left hlow).symm
  | succ n ih =>
    by_cases hroom : userStackLow + 4 ≤ s.esp
    · have hnext : (pushWord s (s.argvPointers n)).esp = s.esp - 4 := below_eq (by omega) (by omega)
      have hrest := @ih (pushWord s (s.argvPointers n)) (by omega) (by omega)
      refine hrest.trans ?_
      rw [onStack_pushWord hesp, hnext, and_assoc]
      exact and_congr_right fun _ => by omega
    · -- the first pointer already lies below the stack
      refine iff_of_false (fun h => hroom ?_) fun h => hroom (by omega)
      obtain ⟨ws, hws⟩ : ∃ ws, (pushPointers (n + 1) s).writes =
          (pushWord s (s.argvPointers n)).writes ++ ws := pushPointers_writes n _
      rw [hws, onStack_append] at h
      exact ((onStack_pushWord hesp).mp h.1).2

theorem onStack_copies {junk : Nat → Nat}
    (h : OnStack (setupUserStack userStackBase (args.map some) junk).writes) :
    OnStack (copies userStackBase (args.take 16)) := by
  obtain ⟨s, -, -, hwrites, -, heq⟩ := @setupUserStack_eq args junk
  obtain ⟨ws, hws⟩ := pushPointers_writes s.actualArgc (pushWord s 0)
  rw [heq] at h
  have hloop := (onStack_append.mp (onStack_append.mp h).1).1
  rw [hws] at hloop
  rw [← hwrites]
  exact (onStack_append.mp (onStack_append.mp hloop).1).1

theorem onStack_setup {junk : Nat → Nat} (he : e = bottom userStackBase (args.take 16))
    (hlow : userStackLow ≤ e) (hhigh : e ≤ userStackBase) :
    OnStack (setupUserStack userStackBase (args.map some) junk).writes ↔
      OnStack (copies userStackBase (args.take 16)) ∧ userStackLow + 4 * ((args.take 16).length + 3) ≤ e := by
  have hbase : userStackBase = 8388608 := rfl
  obtain ⟨s, hesp, hcount, hwrites, -, heq⟩ := @setupUserStack_eq args junk
  rw [← he] at hesp
  rw [heq, ← hwrites]
  rw [hcount]
  generalize (args.take 16).length = n
  by_cases hroom : userStackLow + 4 * (n + 1) ≤ e
  · have h₁ : (pushWord s 0).esp = e - 4 := by
      rw [← hesp]
      exact below_eq (by omega) (by omega)
    have h₂ : (pushPointers n (pushWord s 0)).esp = e - 4 - 4 * n := by
      rw [← h₁]
      exact pushPointers_esp (by omega) (by omega)
    have hloop : OnStack (pushPointers n (pushWord s 0)).writes ↔ OnStack s.writes := by
      rw [onStack_pushPointers (by omega) (by omega), onStack_pushWord (by omega), h₁, hesp, and_assoc]
      exact and_iff_left (by omega)
    generalize pushPointers n (pushWord s 0) = t at h₂ hloop
    by_cases hroom' : userStackLow + 4 ≤ t.esp
    · have h₃ : (pushWord t t.esp).esp = t.esp - 4 := below_eq (by omega) (by omega)
      rw [onStack_pushWord (by omega), onStack_pushWord (by omega), h₃, hloop, and_assoc]
      exact and_congr_right fun _ => by omega
    · refine iff_of_false (fun h => hroom' ?_) fun h => hroom' (by omega)
      exact ((onStack_pushWord (by omega)).mp (onStack_append.mp h).1).2
  · refine iff_of_false (fun h => hroom ?_) fun h => hroom (by omega)
    have hloop := (onStack_append.mp (onStack_append.mp h).1).1
    obtain ⟨ws, hws⟩ := pushPointers_writes n (pushWord s 0)
    have hfirst := ((onStack_pushWord (by omega)).mp (onStack_append.mp (hws ▸ hloop)).1).2
    have h₁ : (pushWord s 0).esp = e - 4 := by
      rw [← hesp]
      exact below_eq (by omega) (by omega)
    have hrest := ((onStack_pushPointers (by omega) (by omega)).mp hloop).2
    omega

end Bounds

section Room

variable {m m₁ : Mem} {e : Nat} {arg : List UInt8} {args : List (List UInt8)}

theorem alignedLen_eq (h : arg.length < 4294967292) : alignedLen arg = room arg := by
  unfold alignedLen room
  rw [show arg.length + 1 + 3 = arg.length + 4 by omega, word32, Nat.mod_eq_of_lt (by omega)]

theorem lt_room (arg : List UInt8) : arg.length < room arg := by
  unfold room
  omega

theorem spot_eq (hlow : userStackLow ≤ e) (hhigh : e ≤ userStackBase) (hlength : arg.length < 1048576) :
    spot e arg = if Fits e arg then e - room arg else e - 4 := by
  have hbase : userStackBase = 8388608 := rfl
  have hbottom : userStackLow = 7340032 := rfl
  have hroom : room arg ≤ 1048576 := by
    unfold room
    omega
  have hguard := below_eq (show room arg ≤ e by omega) (show e < 4294967296 by omega)
  unfold spot
  rw [alignedLen_eq (by omega), hguard, below_eq (by omega) (by omega)]
  by_cases hfits : userStackLow + room arg ≤ e
  · rw [if_neg (by omega)]
    exact (if_pos hfits).symm
  · rw [if_pos (by omega)]
    exact (if_neg hfits).symm

theorem spot_of_fits (hhigh : e ≤ userStackBase) (hfits : Fits e arg) : spot e arg = e - room arg := by
  have hbase : userStackBase = 8388608 := rfl
  have hbottom : userStackLow = 7340032 := rfl
  have hlength := lt_room arg
  have hroom : userStackLow + room arg ≤ e := hfits
  rw [spot_eq (by omega) hhigh (by omega), if_pos hfits]

theorem strings_of_room (m : Mem) (hhigh : e ≤ userStackBase)
    (hroom : userStackLow + (args.map room).sum ≤ e) :
    bottom e args = e - (args.map room).sum ∧ (∀ w ∈ copies e args, w.1 < e) ∧
      OnStack (copies e args) ∧ Copies e args ((spots e args).zip args) ∧
      (∀ s ∈ (spots e args).zip args, CString (after m (copies e args)) s.1 s.2 ∧
        bottom e args ≤ s.1 ∧ s.1 + s.2.length < e) ∧ ((spots e args).zip args).Pairwise Apart := by
  have hbase : userStackBase = 8388608 := rfl
  induction args generalizing e m with
  | nil => exact ⟨rfl, nofun, nofun, trivial, nofun, .nil⟩
  | cons arg args ih =>
    rw [map_cons, sum_cons] at hroom ⊢
    have hlength := lt_room arg
    have hspot : spot e arg = e - room arg := spot_of_fits hhigh (show _ ≤ _ by omega)
    have hplace : spot e arg < 4294967296 := spot_lt e arg
    obtain ⟨hdown, hbelow, hon, hcopies, hstrings, hapart⟩ :=
      ih (after m (strcpy (spot e arg) arg)) (show spot e arg ≤ userStackBase by omega) (by omega)
    have hcopy : after m (strcpy (spot e arg) arg) =
        blit m (spot e arg) (arg ++ [0]).length fun k => (arg ++ [0]).getD k 0 :=
      after_writeBytes (by simp; omega)
    have hfirst : CString (after m (copies e (arg :: args))) (spot e arg) arg := by
      intro k hk
      rw [copies, after_append, after_of_not_mem fun w hw => ?_, hcopy, blit_add (by simp; omega)]
      · exact getD_terminated hk
      · exact Nat.ne_of_lt (lt_of_lt_of_le (hbelow w hw) (Nat.le_add_right _ _))
    refine ⟨?_, fun w hw => ?_, ?_, ⟨.inl rfl, hcopies⟩, fun s hs => ?_, ?_⟩
    · exact hdown.trans (by omega)
    · rcases mem_append.mp hw with hw | hw
      · obtain ⟨k, hk, rfl⟩ := mem_writeBytes.mp hw
        rw [length_append, length_singleton] at hk
        unfold word32
        omega
      · exact (hbelow w hw).trans_le (by omega)
    · rw [copies, onStack_append, onStack_strcpy hplace]
      exact ⟨by omega, hon⟩
    · rw [spots, zip_cons_cons, mem_cons] at hs
      have hsame : bottom e (arg :: args) = bottom (spot e arg) args := rfl
      rcases hs with rfl | hs
      · exact ⟨hfirst, by dsimp only; omega, by dsimp only; omega⟩
      · obtain ⟨hstring, hlow, htop⟩ := hstrings s hs
        exact ⟨by rw [copies, after_append]; exact hstring, by rw [hsame]; exact hlow, by omega⟩
    · rw [spots, zip_cons_cons, pairwise_cons]
      exact ⟨fun s hs => .inr (hstrings s hs).2.2, hapart⟩

theorem bottom_mem (hlow : userStackLow ≤ e) (hhigh : e ≤ userStackBase) (hon : OnStack (copies e args)) :
    userStackLow ≤ bottom e args ∧ bottom e args ≤ userStackBase := by
  induction args generalizing e with
  | nil => exact ⟨hlow, hhigh⟩
  | cons arg args ih =>
    obtain ⟨hfirst, hrest⟩ := onStack_append.mp hon
    have hplace := (onStack_strcpy (spot_lt e arg)).mp hfirst
    exact ih hplace.1 (by omega) hrest

/-- With the strings in order and apart, every one of them had room: the last one that had none would
reach into the one above it. -/
theorem room_of_strings {strings : List (Nat × List UInt8)} (hlow : userStackLow ≤ e)
    (hhigh : e ≤ userStackBase) (hon : OnStack (copies e args))
    (hplaces : strings.map Prod.fst = spots e args) (hcopies : Copies e args strings)
    (hstrings : ∀ s ∈ strings, CString m s.1 s.2) (hapart : strings.Pairwise Apart)
    (htop : ∀ s ∈ strings.head?, e < s.1 ∨ s.1 + s.2.length < e) (hspare : userStackLow + 12 ≤ bottom e args)
    (hm : ∀ x, bottom e args ≤ x → m x = after m₁ (copies e args) x) (hzero : ∀ arg ∈ args, 0 ∉ arg) :
    userStackLow + (args.map room).sum ≤ e := by
  have hbase : userStackBase = 8388608 := rfl
  have hlowest : userStackLow = 7340032 := rfl
  induction args generalizing e m₁ strings with
  | nil => exact hlow
  | cons arg args ih =>
    obtain ⟨⟨p, t⟩, strings, rfl⟩ : ∃ s rest, strings = s :: rest := by
      cases strings with
      | nil => exact hcopies.elim
      | cons s rest => exact ⟨s, rest, rfl⟩
    rw [map_cons, spots, cons.injEq] at hplaces
    obtain ⟨rfl, hplaces⟩ : p = spot e arg ∧ _ := hplaces
    obtain ⟨hfirst, hrest⟩ := onStack_append.mp hon
    obtain ⟨hpLow, hpHigh⟩ := (onStack_strcpy (spot_lt e arg)).mp hfirst
    rw [pairwise_cons] at hapart
    have hrest' : ∀ x, bottom (spot e arg) args ≤ x →
        m x = after (after m₁ (strcpy (spot e arg) arg)) (copies (spot e arg) args) x := fun x hx => by
      rw [← after_append]
      exact hm x hx
    have hbelow : userStackLow + (args.map room).sum ≤ spot e arg :=
      ih hpLow (by omega) hrest hplaces hcopies.2
        (fun s hs => hstrings s (mem_cons_of_mem _ hs)) hapart.2
        (fun s hs => by
          have hs' := hapart.1 s (mem_of_mem_head? hs)
          unfold Apart at hs'
          omega)
        hspare hrest'
        fun a ha => hzero a (mem_cons_of_mem _ ha)
    obtain ⟨hdown, hunder, -⟩ := strings_of_room m₁ (show spot e arg ≤ userStackBase by omega) hbelow
    rw [map_cons, sum_cons]
    by_cases hfits : Fits e arg
    · rw [spot_of_fits hhigh hfits] at hbelow
      omega
    · exfalso
      have hspot := spot_eq hlow hhigh (show arg.length < 1048576 by omega)
      rw [if_neg hfits] at hspot
      have hsame : bottom e (arg :: args) = bottom (spot e arg) args := rfl
      have hlength : 4 ≤ arg.length := by
        unfold Fits room at hfits
        omega
      -- nothing below reaches the copy
      have hcopy : ∀ k ≤ arg.length, m (spot e arg + k) = arg.getD k 0 := by
        intro k hk
        rw [hm _ (by omega), copies, after_append]
        have hkeep : ∀ w ∈ copies (spot e arg) args, w.1 ≠ spot e arg + k := fun w hw =>
          Nat.ne_of_lt ((strings_of_room m₁ (show spot e arg ≤ userStackBase by omega) hbelow).2.1 w
            hw |>.trans_le (Nat.le_add_right _ _))
        rw [after_of_not_mem hkeep, strcpy, after_writeBytes (by simp; omega), blit_add (by simp; omega)]
        exact getD_terminated hk
      obtain ⟨rfl | ⟨rfl, -⟩, -⟩ := hcopies
      · have happart := htop _ rfl
        dsimp only at happart
        omega
      · have hend := hstrings _ mem_cons_self 0 (Nat.zero_le _)
        have hhead := hcopy 0 (Nat.zero_le _)
        rw [hhead] at hend
        refine hzero arg mem_cons_self ?_
        have hmem : arg.getD 0 0 ∈ arg := by
          rw [getD_eq_getElem _ _ (by omega)]
          exact getElem_mem _
        rw [hend] at hmem
        simpa using hmem

end Room

section Program

variable {m : Mem} {junk : Nat → Nat} {args : List (List UInt8)}

/-- `setup_user_stack` stays on the stack and hands the arguments over. -/
def Correct (m : Mem) (args : List (List UInt8)) (junk : Nat → Nat) : Prop :=
  let s := setupUserStack userStackBase (args.map some) junk
  OnStack s.writes ∧ Handed (after m s.writes) s.esp (args.take 16)

theorem Copies.length_eq {top : Nat} {strings : List (Nat × List UInt8)} (h : Copies top args strings) :
    strings.length = args.length := by
  induction args generalizing top strings with
  | nil =>
    cases strings with
    | nil => rfl
    | cons s strings => exact h.elim
  | cons arg args ih =>
    cases strings with
    | nil => exact h.elim
    | cons s strings =>
      rw [length_cons, length_cons, ih h.2]

theorem Copies.head_lt {top : Nat} {strings : List (Nat × List UInt8)} (h : Copies top args strings)
    (hplaces : strings.map Prod.fst = spots top args) (hon : OnStack (copies top args)) :
    ∀ s ∈ strings.head?, s.1 + s.2.length < userStackBase := by
  intro s hs
  obtain ⟨rest, rfl⟩ := head?_eq_some_iff.mp hs
  cases args with
  | nil => exact h.elim
  | cons arg args =>
    obtain ⟨p, t⟩ := s
    obtain ⟨rfl, -⟩ := cons.inj hplaces
    have hplace := (onStack_strcpy (spot_lt top arg)).mp (onStack_append.mp hon).1
    obtain ⟨rfl | ⟨rfl, -⟩, -⟩ := h
    · exact hplace.2
    · exact lt_of_le_of_lt (Nat.le_add_right _ _) hplace.2

theorem correct_of_room (m : Mem) (junk : Nat → Nat)
    (hroom : userStackLow + need (args.take 16) ≤ userStackBase) : Correct m args junk := by
  unfold need at hroom
  obtain ⟨hdown, -, hon, hcopies, hstrings, hapart⟩ :=
    @strings_of_room userStackBase (args.take 16) m le_rfl (by omega)
  obtain ⟨hesp, hargc, harray, hpointers, hkeep⟩ := @setup_frame m args junk _ rfl (by omega) (by omega)
  have hlength : ((spots userStackBase (args.take 16)).zip (args.take 16)).length = (args.take 16).length := by
    rw [length_zip, length_spots, Nat.min_self]
  refine ⟨(onStack_setup rfl (by omega) (by omega)).mpr ⟨hon, by omega⟩, _,
    (spots userStackBase (args.take 16)).zip (args.take 16), hargc, harray, ?_, fun s hs => ?_, hcopies,
    hapart, fun s hs => ?_⟩
  · rw [map_fst_zip (by rw [length_spots])]
    exact hpointers
  · obtain ⟨hstring, hlow, -⟩ := hstrings s hs
    intro k hk
    rw [hkeep _ (by omega)]
    exact hstring k hk
  · obtain ⟨-, hlow, -⟩ := hstrings s hs
    refine .inr ?_
    omega

theorem room_of_correct (hzero : ∀ arg ∈ args, 0 ∉ arg) (h : Correct m args junk) :
    userStackLow + need (args.take 16) ≤ userStackBase := by
  obtain ⟨hon, array, strings, hargc, harray, hpointers, hstrings, hcopies, hapart, -⟩ := h
  have hcopied := onStack_copies hon
  obtain ⟨hlow, hhigh⟩ := bottom_mem (by decide) le_rfl hcopied
  obtain ⟨-, hwords⟩ := (onStack_setup rfl hlow hhigh).mp hon
  obtain ⟨-, -, harray', hpointers', hkeep⟩ := @setup_frame m args junk _ rfl hhigh hwords
  rw [← harray', harray] at hpointers'
  have hplaces : strings.map Prod.fst = spots userStackBase (args.take 16) :=
    hpointers.unique hpointers' (by rw [length_map, length_spots, hcopies.length_eq])
  have htop : ∀ s ∈ strings.head?, s.1 + s.2.length < userStackBase := hcopies.head_lt hplaces hcopied
  have hroom := @room_of_strings _ m _ _ _ (by decide) le_rfl hcopied hplaces hcopies hstrings hapart
    (fun s hs => .inr (htop s hs)) (by omega) hkeep
    fun arg harg => hzero arg (mem_of_mem_take harg)
  obtain ⟨hdown, -⟩ := strings_of_room m le_rfl hroom
  unfold need
  omega

/-- The stack is in order exactly if the first sixteen arguments have room, with the pointers, in its megabyte. -/
theorem setupUserStack_iff (m : Mem) (junk : Nat → Nat) (args : List (List UInt8))
    (hzero : ∀ arg ∈ args, 0 ∉ arg) :
    Correct m args junk ↔ need (args.take 16) ≤ 1048576 := by
  have hsize : userStackBase = userStackLow + 1048576 := rfl
  constructor
  · intro h
    have hroom := room_of_correct hzero h
    omega
  · intro hroom
    exact correct_of_room m junk (by omega)

/-- `ls -l` -/
theorem setupUserStack_ls : Correct (fun _ => 0) [[0x6C, 0x73], [0x2D, 0x6C]] fun _ => 0 :=
  (setupUserStack_iff (fun _ => 0) (fun _ => 0) [[0x6C, 0x73], [0x2D, 0x6C]] (by decide)).mpr (by decide)

theorem not_correct_of_long {arg : List UInt8} (hzero : 0 ∉ arg) (hlong : 1048576 ≤ arg.length) :
    ¬ Correct m [arg] junk := by
  intro hcorrect
  have hroom := room_of_correct (by simpa using hzero) hcorrect
  have hsize : userStackBase = userStackLow + 1048576 := rfl
  have hneed : need ([arg].take 16) = room arg + 16 := rfl
  have hlength := lt_room arg
  omega

/-- One argument of a megabyte. -/
theorem not_correct_megabyte : ¬ ∀ (m : Mem) (junk : Nat → Nat) (args : List (List UInt8)),
    (∀ arg ∈ args, 0 ∉ arg) → Correct m args junk := by
  obtain ⟨arg, hzero, hlong⟩ : ∃ arg : List UInt8, 0 ∉ arg ∧ arg.length = 1048576 :=
    ⟨List.replicate 1048576 97, fun hmem => absurd (eq_of_mem_replicate hmem) (by decide),
      length_replicate⟩
  intro hclaim
  exact not_correct_of_long hzero hlong.ge (hclaim (fun _ => 0) (fun _ => 0) [arg] (by simpa using hzero))

end Program

end JexOs.UserStack
