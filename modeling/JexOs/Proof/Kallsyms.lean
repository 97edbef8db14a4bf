import JexOs.Kallsyms
import Mathlib.Data.UInt

/-!
# Symbols that are found

What the lookup finds depends on the order that the entries are looked at, because an entry covers whole units of
16 bytes.
-/

namespace JexOs.Kallsyms

open ByteMem BinarySearch List Option

section Layout

variable {m : Mem} {syms first rest : List Symbol} {s : Symbol} {offset : Nat}

theorem assemble_cons (d : Directive) (ds : List Directive) :
    assemble (d :: ds) = d.bytes ++ assemble ds := rfl

theorem assemble_append (ds ds' : List Directive) :
    assemble (ds ++ ds') = assemble ds ++ assemble ds' := flatMap_append

def namesLength (syms : List Symbol) : Nat := (syms.map fun s => s.name.length + 1).sum

theorem printEntries_append (offset : Nat) (first rest : List Symbol) : printEntries offset (first ++ rest) =
      printEntries offset first ++ printEntries (offset + namesLength first) rest := by
  induction first generalizing offset with
  | nil => rfl
  | cons s first ih =>
    rw [cons_append, printEntries, ih, Nat.add_assoc]
    rfl

theorem length_assemble_printEntries (offset : Nat) (syms : List Symbol) :
    (assemble (printEntries offset syms)).length = 8 * syms.length := by
  induction syms generalizing offset with
  | nil => rfl
  | cons s syms ih =>
    rw [printEntries, assemble_cons, assemble_cons, length_append, length_append, ih, length_cons]
    show 4 + (4 + _) = _
    omega

theorem length_assemble_names (syms : List Symbol) :
    (assemble (syms.map fun s => .asciz s.name)).length = namesLength syms := by
  induction syms with
  | nil => rfl
  | cons s syms ih =>
    rw [map_cons, assemble_cons, length_append, ih]
    show (s.name ++ [0]).length + _ = _
    rw [length_append]
    rfl

theorem memOf_append (before part after : List UInt8) {k : Nat} (hk : k < part.length) :
    memOf (before ++ part ++ after) (before.length + k) = part.getD k 0 := by
  unfold memOf
  rw [getD_append _ _ _ _ (by rw [length_append]; omega),
    getD_append_right _ _ _ _ (Nat.le_add_right _ _), Nat.add_sub_cancel_left]

theorem load32_memOf (before after : List UInt8) {v : Nat} (hv : v < 2 ^ 32) :
    load32 (memOf (before ++ longBytes v ++ after)) before.length = v := by
  refine load32_byteOf hv fun k hk => ?_
  rw [memOf_append before (longBytes v) after hk]
  rcases (by omega : k = 0 ∨ k = 1 ∨ k = 2 ∨ k = 3) with rfl | rfl | rfl | rfl
  all_goals rfl

theorem cString_of_bytes {bytes : List UInt8} {limit a : Nat} (hlimit : bytes.length < limit)
    (hbytes : ∀ k < bytes.length, m (a + k) = bytes.getD k 0) (hzero : 0 ∉ bytes)
    (hend : m (a + bytes.length) = 0) : cString m limit a = bytes := by
  induction bytes generalizing limit a with
  | nil =>
    obtain ⟨limit, rfl⟩ := Nat.exists_eq_succ_of_ne_zero (Nat.pos_iff_ne_zero.mp hlimit)
    exact if_pos hend
  | cons c bytes ih =>
    obtain ⟨limit, rfl⟩ : ∃ n, limit = n + 1 :=
      Nat.exists_eq_succ_of_ne_zero (Nat.pos_iff_ne_zero.mp (Nat.zero_lt_of_lt hlimit))
    rw [length_cons] at hlimit hbytes hend
    have hc : m a = c := hbytes 0 (Nat.succ_pos _)
    unfold cString
    rw [if_neg (by rw [hc]; exact fun h => hzero (h ▸ mem_cons_self)), hc]
    refine congrArg (c :: ·) (ih (by omega) (fun k hk => ?_) (fun h => hzero (mem_cons_of_mem _ h)) ?_)
    · rw [Nat.add_assoc, Nat.add_comm 1 k]
      exact hbytes (k + 1) (by omega)
    · rw [Nat.add_assoc, Nat.add_comm 1]
      exact hend

end Layout

structure Table (m : Mem) (limit : Nat) (syms : List Symbol) : Prop where
  count : symCount m = syms.length
  addr : ∀ (i : Nat) (s : Symbol), syms[i]? = some s → entryAddr m i = s.addr
  size : ∀ (i : Nat) (s : Symbol), syms[i]? = some s → entrySize m i = packSize s.size
  name : ∀ (i : Nat) (s : Symbol), syms[i]? = some s →
    cString m limit (symStrings m + entryNameOff m i) = s.name

section Layout

variable {syms : List Symbol}

theorem packSize_le (size : UInt32) : (packSize size).toNat ≤ 255 := by
  unfold packSize
  dsimp only
  split
  · exact le_rfl
  · rename_i h
    exact Nat.le_of_not_lt fun hlt => h (UInt32.lt_iff_toNat_lt.mpr hlt)

theorem namesLength_le (h : ∀ s ∈ syms, s.name.length ≤ maxName) : namesLength syms ≤ 256 * syms.length := by
  induction syms with
  | nil => exact le_rfl
  | cons s syms ih =>
    have hs := h s mem_cons_self
    have hrest := ih fun s' hs' => h s' (mem_cons_of_mem _ hs')
    unfold maxName at hs
    unfold namesLength at hrest ⊢
    rw [map_cons, sum_cons, length_cons]
    omega

theorem split_at {i : Nat} {s : Symbol} (h : syms[i]? = some s) :
    ∃ first rest, syms = first ++ s :: rest ∧ first.length = i := by
  obtain ⟨hi, rfl⟩ := List.getElem?_eq_some_iff.mp h
  refine ⟨syms.take i, syms.drop (i + 1), ?_, length_take_of_le hi.le⟩
  rw [cons_getElem_drop_succ, take_append_drop]

theorem load32_eq {bytes before after : List UInt8} {v a : Nat}
    (hbytes : bytes = before ++ (longBytes v ++ after)) (ha : before.length = a) (hv : v < 2 ^ 32) :
    load32 (memOf bytes) a = v := by
  rw [hbytes, ← ha, ← append_assoc]
  exact load32_memOf before after hv

theorem symCount_genKallsyms (hcount : syms.length ≤ maxSymbols) :
    symCount (memOf (assemble (genKallsyms syms))) = syms.length := by
  unfold maxSymbols at hcount
  exact load32_eq (nil_append _).symm rfl (by omega)

theorem entry_genKallsyms {first rest : List Symbol} {s : Symbol} (hoffset : namesLength first < 2 ^ 24) :
    load32 (memOf (assemble (genKallsyms (first ++ s :: rest)))) (4 + 8 * first.length) = s.addr.toNat ∧
      load32 (memOf (assemble (genKallsyms (first ++ s :: rest)))) (4 + 8 * first.length + 4) =
        namesLength first + (packSize s.size).toNat * 2 ^ 24 := by
  have hpack := packSize_le s.size
  have hbytes : assemble (genKallsyms (first ++ s :: rest)) =
      longBytes (first ++ s :: rest).length ++ (assemble (printEntries 0 first) ++
        (longBytes s.addr.toNat ++ (longBytes (namesLength first + (packSize s.size).toNat * 2 ^ 24) ++
          (assemble (printEntries (namesLength first + (s.name.length + 1)) rest) ++
            assemble ((first ++ s :: rest).map fun s => .asciz s.name))))) := by
    unfold genKallsyms
    rw [assemble_cons, assemble_append, printEntries_append, assemble_append, printEntries,
      assemble_cons, assemble_cons, Nat.zero_add, Nat.mod_eq_of_lt hoffset]
    simp only [Directive.bytes, append_assoc]
  have hlength : (longBytes (first ++ s :: rest).length ++ assemble (printEntries 0 first)).length =
      4 + 8 * first.length := by
    rw [length_append, length_assemble_printEntries]
    rfl
  constructor
  · exact load32_eq (hbytes.trans (append_assoc _ _ _).symm) hlength s.addr.toNat_lt
  · refine load32_eq (hbytes.trans ((append_assoc _ _ _).symm.trans (append_assoc _ _ _).symm)) ?_ (by omega)
    rw [length_append, hlength]
    rfl

theorem name_genKallsyms {first rest : List Symbol} {s : Symbol} (hzero : (0 : UInt8) ∉ s.name) :
    cString (memOf (assemble (genKallsyms (first ++ s :: rest))))
      (assemble (genKallsyms (first ++ s :: rest))).length
      (4 + 8 * (first ++ s :: rest).length + namesLength first) = s.name := by
  have hbytes : assemble (genKallsyms (first ++ s :: rest)) =
      (longBytes (first ++ s :: rest).length ++ assemble (printEntries 0 (first ++ s :: rest)) ++
        assemble (first.map fun s => .asciz s.name)) ++ (s.name ++ [0]) ++
          assemble (rest.map fun s => .asciz s.name) := by
    unfold genKallsyms
    rw [assemble_cons, assemble_append, map_append, assemble_append, map_cons, assemble_cons]
    simp only [Directive.bytes, append_assoc]
  have hlength : (longBytes (first ++ s :: rest).length ++
      assemble (printEntries 0 (first ++ s :: rest)) ++
        assemble (first.map fun s => .asciz s.name)).length =
      4 + 8 * (first ++ s :: rest).length + namesLength first := by
    rw [length_append, length_append, length_assemble_printEntries, length_assemble_names]
    rfl
  have hread {k : Nat} (hk : k < s.name.length + 1) :
      memOf (assemble (genKallsyms (first ++ s :: rest)))
        (4 + 8 * (first ++ s :: rest).length + namesLength first + k) = (s.name ++ [0]).getD k 0 := by
    rw [hbytes, ← hlength]
    exact memOf_append _ _ _ (by rw [length_append]; exact hk)
  refine cString_of_bytes ?_ (fun k hk => ?_) hzero ?_
  · have hend : (s.name ++ [0]).length = s.name.length + 1 := length_append
    rw [hbytes, length_append, length_append, hend]
    omega
  · rw [hread (by omega), getD_append _ _ _ _ hk]
  · rw [hread (by omega), getD_append_right _ _ _ _ le_rfl, Nat.sub_self]
    rfl

theorem table_genKallsyms (hcount : syms.length ≤ maxSymbols)
    (hname : ∀ s ∈ syms, s.name.length ≤ maxName) (hzero : ∀ s ∈ syms, (0 : UInt8) ∉ s.name) :
    Table (memOf (assemble (genKallsyms syms))) (assemble (genKallsyms syms)).length syms := by
  have hoffset {first rest : List Symbol} {s : Symbol} (heq : syms = first ++ s :: rest) :
      namesLength first < 2 ^ 24 := by
    have hle := namesLength_le fun s' hs' => hname s' (heq ▸ mem_append_left _ hs')
    have hlength := congrArg List.length heq
    rw [length_append, length_cons] at hlength
    unfold maxSymbols at hcount
    omega
  refine
    { count := symCount_genKallsyms hcount
      addr := fun i s hs => ?_
      size := fun i s hs => ?_
      name := fun i s hs => ?_ }
  · obtain ⟨first, rest, rfl, rfl⟩ := split_at hs
    unfold entryAddr
    rw [Int.toNat_natCast, (entry_genKallsyms (hoffset rfl)).1, UInt32.ofNat_toNat]
  · obtain ⟨first, rest, rfl, rfl⟩ := split_at hs
    have hlt := hoffset rfl
    unfold entrySize
    rw [Int.toNat_natCast, (entry_genKallsyms hlt).2, show (namesLength first +
      (packSize s.size).toNat * 2 ^ 24) / 2 ^ 24 = (packSize s.size).toNat by omega, UInt32.ofNat_toNat]
  · obtain ⟨first, rest, rfl, rfl⟩ := split_at hs
    have hlt := hoffset rfl
    unfold entryNameOff symStrings
    rw [Int.toNat_natCast, (entry_genKallsyms hlt).2, show (namesLength first +
      (packSize s.size).toNat * 2 ^ 24) % 2 ^ 24 = namesLength first by omega,
      symCount_genKallsyms hcount]
    exact name_genKallsyms (hzero s (mem_append_right _ mem_cons_self))

end Layout

theorem packSize_toNat {size : UInt32} (h : size.toNat ≤ 4080) :
    (packSize size).toNat = (size.toNat + 15) / 16 := by
  have hsum : (size + 15).toNat = size.toNat + 15 := by
    exact Nat.mod_eq_of_lt (by show size.toNat + 15 < 2 ^ 32; omega)
  have hdiv : ((size + 15) / 16).toNat = (size.toNat + 15) / 16 := by
    rw [UInt32.toNat_div, hsum]
    rfl
  unfold packSize
  rw [if_neg, hdiv]
  rw [gt_iff_lt, UInt32.lt_iff_toNat_lt, hdiv]
  show ¬ 255 < _
  omega

def Symbol.finish (s : Symbol) : Nat := s.addr.toNat + s.size.toNat

def Symbol.covered (s : Symbol) : Nat := s.addr.toNat + 16 * (packSize s.size).toNat

def Symbol.Contains (s : Symbol) (a : UInt32) : Prop := s.addr.toNat ≤ a.toNat ∧ a.toNat < s.finish

structure Extents (syms : List Symbol) : Prop where
  pos : ∀ s ∈ syms, 0 < s.size.toNat
  disjoint : syms.Pairwise fun s t => ∀ a, s.Contains a → ¬ t.Contains a

section Extents

variable {syms : List Symbol} {s t : Symbol} {i j : Nat}

theorem Symbol.contains_addr (h : 0 < s.size.toNat) : s.Contains s.addr :=
  ⟨le_rfl, Nat.lt_add_of_pos_right h⟩

variable (h : Extents syms)

include h

theorem Extents.mem_pos (hs : syms[i]? = some s) : 0 < s.size.toNat :=
  h.pos s (mem_of_getElem? hs)

theorem Extents.not_contains (hs : syms[i]? = some s) (ht : syms[j]? = some t)
    (hij : i ≠ j) {a : UInt32} (ha : s.Contains a) : ¬ t.Contains a := by
  have hlt {i j : Nat} {s t : Symbol} (hs : syms[i]? = some s) (ht : syms[j]? = some t) (hij : i < j) :
      ∀ a, s.Contains a → ¬ t.Contains a := by
    obtain ⟨hi, rfl⟩ := List.getElem?_eq_some_iff.mp hs
    obtain ⟨hj, rfl⟩ := List.getElem?_eq_some_iff.mp ht
    exact pairwise_iff_getElem.mp h.disjoint i j hi hj hij
  rcases Nat.lt_or_gt_of_ne hij with hij | hij
  · exact hlt hs ht hij a ha
  · exact fun hcontains => hlt ht hs hij a hcontains ha

theorem Extents.index_eq (hs : syms[i]? = some s) (ht : syms[j]? = some t)
    (haddr : s.addr = t.addr) : i = j := by
  by_contra hij
  refine h.not_contains hs ht hij (s.contains_addr (h.mem_pos hs)) ?_
  rw [haddr]
  exact t.contains_addr (h.mem_pos ht)

def Ascending (syms : List Symbol) : Prop :=
  ∀ (i j : Nat) (s t : Symbol), syms[i]? = some s → syms[j]? = some t → i < j →
    s.addr.toNat < t.addr.toNat

theorem Extents.finish_le (hs : syms[i]? = some s) (ht : syms[j]? = some t)
    (hlt : s.addr.toNat < t.addr.toNat) : s.finish ≤ t.addr.toNat := by
  by_contra hfinish
  have hij : i ≠ j := by
    rintro rfl
    rw [hs] at ht
    cases ht
    omega
  exact h.not_contains hs ht hij ⟨hlt.le, not_le.mp hfinish⟩ (t.contains_addr (h.mem_pos ht))

theorem Extents.next_index (hascending : Ascending syms) (hs : syms[i]? = some s)
    (ht : syms[j]? = some t) (hij : i < j) (haddr : t.addr.toNat = s.finish) : j = i + 1 := by
  by_contra hne
  have hlength := (List.getElem?_eq_some_iff.mp ht).1
  have hu : syms[i + 1]? = some (syms.get ⟨i + 1, by omega⟩) := getElem?_eq_getElem (by omega)
  have hle := h.finish_le hs hu (hascending i (i + 1) s _ hs hu (Nat.lt_succ_self i))
  have hlt := hascending (i + 1) j _ t hu ht (by omega)
  omega

end Extents

/-- The units behind the end of a symbol are its last one, or they begin with the next symbol, which is
looked at earlier. -/
def Covers (syms : List Symbol) (i : Nat) (s : Symbol) : Prop :=
  s.size.toNat % 16 = 0 ∨ ∃ t, syms[i + 1]? = some t ∧ t.addr.toNat = s.finish ∧
    depth syms.length (i + 1) < depth syms.length i

section Lookup

variable {m : Mem} {limit : Nat} {syms : List Symbol} {s t : Symbol} {i j : Nat} {a : UInt32}

def look (m : Mem) (n : Nat) (a : UInt32) : Option Int :=
  search (hit m a) (fun mid => decide (a < entryAddr m mid)) n 0 (n - 1)

section

variable (h : Table m limit syms)

include h

theorem Table.lookup (a : UInt32) : kallsymsLookup m a limit = (look m syms.length a).bind fun i => some
      { name := cString m limit (symStrings m + entryNameOff m i)
        offset := a - entryAddr m i
        size := funcSize m i } := by
  unfold kallsymsLookup look
  rw [h.count]
  rfl

theorem Table.hit_iff (hs : syms[i]? = some s) : hit m a i = true ↔
    s.addr.toNat ≤ a.toNat ∧ a.toNat < s.covered ∧ s.covered < 2 ^ 32 := by
  have hpack := packSize_le s.size
  have hsize : (packSize s.size * 16).toNat = 16 * (packSize s.size).toNat := by
    show (packSize s.size).toNat * 16 % 2 ^ 32 = _
    omega
  unfold hit funcSize Symbol.covered
  rw [h.addr i s hs, h.size i s hs, Bool.and_eq_true, decide_eq_true_iff, decide_eq_true_iff,
    ge_iff_le, UInt32.le_iff_toNat_le, UInt32.lt_iff_toNat_lt, UInt32.toNat_add, hsize]
  omega

theorem Table.below_iff (hs : syms[i]? = some s) :
    decide (a < entryAddr m i) = true ↔ a.toNat < s.addr.toNat := by
  rw [decide_eq_true_iff, h.addr i s hs, UInt32.lt_iff_toNat_lt]

omit h in
theorem entry_of_range {i : Int} (hlo : 0 ≤ i) (hhi : i ≤ syms.length - 1) :
    ∃ (k : Nat) (s : Symbol), i = k ∧ syms[k]? = some s := by
  obtain ⟨k, rfl⟩ := Int.eq_ofNat_of_zero_le hlo
  exact ⟨k, syms.get ⟨k, by omega⟩, rfl, getElem?_eq_getElem (by omega)⟩

theorem Table.found_lookup {found : Found}
    (hfound : kallsymsLookup m a limit = some found) : ∃ (i : Nat) (s : Symbol), syms[i]? = some s ∧
      look m syms.length a = some (i : Int) ∧ found.name = s.name ∧ found.offset = a - s.addr := by
  rw [h.lookup] at hfound
  obtain ⟨i, hlook, heq⟩ := bind_eq_some_iff.mp hfound
  obtain ⟨-, hlo, hhi⟩ := search_hit hlook
  obtain ⟨k, s, rfl, hs⟩ := entry_of_range hlo hhi
  cases heq
  exact ⟨k, s, hs, hlook, h.name k s hs, congrArg (a - ·) (h.addr k s hs)⟩

end

def Exact (m : Mem) (limit : Nat) (syms : List Symbol) : Prop :=
  ∀ a, (∀ s ∈ syms, s.Contains a → ∃ found, kallsymsLookup m a limit = some found ∧
      found.name = s.name ∧ found.offset = a - s.addr) ∧
    ((∀ s ∈ syms, ¬ s.Contains a) → kallsymsLookup m a limit = none)

section

variable (h : Exact m limit syms)

include h

section

variable (htable : Table m limit syms)

include htable

variable (hextents : Extents syms)

include hextents

theorem Exact.look (hs : syms[i]? = some s) (ha : s.Contains a) : look m syms.length a = some (i : Int) := by
  obtain ⟨found, hfound, -, hoffset⟩ := (h a).1 s (mem_of_getElem? hs) ha
  obtain ⟨j, t, ht, hlook, -, hoffset'⟩ := htable.found_lookup hfound
  rw [hoffset] at hoffset'
  have haddr : s.addr = t.addr := sub_right_injective hoffset'
  rw [hextents.index_eq hs ht haddr]
  exact hlook

theorem Exact.hit (hs : syms[i]? = some s) (ha : s.Contains a) :
    s.addr.toNat ≤ a.toNat ∧ a.toNat < s.covered ∧ s.covered < 2 ^ 32 :=
  (htable.hit_iff hs).mp (search_hit (h.look htable hextents hs ha)).1

theorem Exact.ascending : Ascending syms := by
  intro i j s t hs ht hij
  have hj := (List.getElem?_eq_some_iff.mp ht).1
  have hle : (entryAddr m (i : Int)).toNat ≤ (entryAddr m (j : Int)).toNat := by
    have hbelow (k mid : Int) : decide (entryAddr m k < entryAddr m mid) = true ↔
        (entryAddr m k).toNat < (entryAddr m mid).toNat := by
      rw [decide_eq_true_iff, UInt32.lt_iff_toNat_lt]
    have hsearch (k : Int) (hlo : 0 ≤ k) (hhi : k ≤ syms.length - 1) :
        Kallsyms.look m syms.length (entryAddr m k) = some k := by
      obtain ⟨k, u, rfl, hu⟩ := entry_of_range hlo hhi
      rw [htable.addr k u hu]
      exact h.look htable hextents hu (u.contains_addr (hextents.mem_pos hu))
    exact key_le_of_search hbelow (show (syms.length : Int) - 1 + 1 - 0 ≤ syms.length by omega)
      hsearch (Int.natCast_nonneg i) (Int.ofNat_lt.mpr hij) (by omega)
  rw [htable.addr i s hs, htable.addr j t ht] at hle
  refine Nat.lt_of_le_of_ne hle fun heq => ?_
  exact absurd (hextents.index_eq hs ht (UInt32.toNat_inj.mp heq)) hij.ne

theorem Exact.size (hs : syms[i]? = some s) : s.size.toNat ≤ 4080 ∧ s.covered < 2 ^ 32 := by
  have hcovered := (h.hit htable hextents hs (s.contains_addr (hextents.mem_pos hs))).2.2
  refine ⟨not_lt.mp fun hlarge => ?_, hcovered⟩
  have hpack := packSize_le s.size
  have ha : (UInt32.ofNat s.covered).toNat = s.covered := UInt32.toNat_ofNat_of_lt' hcovered
  have hcontains : s.Contains (UInt32.ofNat s.covered) := by
    unfold Symbol.Contains Symbol.finish
    rw [ha]
    unfold Symbol.covered
    omega
  have hlt := (h.hit htable hextents hs hcontains).2.1
  omega

end

omit h in
theorem Table.below_iff_lt (htable : Table m limit syms) (hextents : Extents syms)
    (hascending : Ascending syms) (ht : syms[j]? = some t) (ha : t.Contains a) {k : Int}
    (hlo : 0 ≤ k) (hhi : k ≤ syms.length - 1) : decide (a < entryAddr m k) = true ↔ (j : Int) < k := by
  obtain ⟨k, s, rfl, hs⟩ := entry_of_range hlo hhi
  obtain ⟨hlow, hhigh⟩ := ha
  rw [htable.below_iff hs, Int.ofNat_lt]
  rcases lt_trichotomy j k with hlt | rfl | hgt
  · have hle := hextents.finish_le ht hs (hascending j k t s ht hs hlt)
    exact ⟨fun _ => hlt, fun _ => by omega⟩
  · rw [ht] at hs
    cases hs
    exact ⟨fun h => by omega, fun h => absurd h (lt_irrefl _)⟩
  · have hlt := hascending k j s t hs ht hgt
    exact ⟨fun h => by omega, fun h => by omega⟩

theorem Exact.covers (htable : Table m limit syms) (hextents : Extents syms)
    (hs : syms[i]? = some s) : Covers syms i s := by
  by_cases hmod : s.size.toNat % 16 = 0
  · exact .inl hmod
  obtain ⟨hsize, hcovered⟩ := h.size htable hextents hs
  have hascending := h.ascending htable hextents
  have hrange := (List.getElem?_eq_some_iff.mp hs).1
  have hslack : s.finish < s.covered := by
    unfold Symbol.finish Symbol.covered
    rw [packSize_toNat hsize]
    omega
  obtain ⟨a, ha⟩ : ∃ a : UInt32, a.toNat = s.finish :=
    ⟨UInt32.ofNat s.finish, UInt32.toNat_ofNat_of_lt' (by show _ < 2 ^ 32; omega)⟩
  have hhit : Kallsyms.hit m a i = true :=
    (htable.hit_iff hs).mpr ⟨by rw [ha]; exact Nat.le_add_right _ _, by omega, hcovered⟩
  -- the first address behind the symbol belongs to another one
  obtain ⟨j, t, ht, hcontains⟩ : ∃ (j : Nat) (t : Symbol), syms[j]? = some t ∧ t.Contains a := by
    by_contra hnone
    have hlookup := (h a).2 fun t ht hcontains => by
      obtain ⟨j, hj⟩ := getElem?_of_mem ht
      exact hnone ⟨j, t, hj, hcontains⟩
    rw [htable.lookup] at hlookup
    have hlook : Kallsyms.look m syms.length a = none := by
      cases hlook : Kallsyms.look m syms.length a with
      | none => rfl
      | some k =>
        rw [hlook] at hlookup
        cases hlookup
    have hfalse := hit_eq_false (show (syms.length : Int) - 1 + 1 - 0 ≤ syms.length by omega)
      (Int.natCast_nonneg i) (by omega) (fun k hlo hhi => ?_) hlook
    · rw [hhit] at hfalse
      cases hfalse
    · obtain ⟨k, u, rfl, hu⟩ := entry_of_range hlo hhi
      rw [htable.below_iff hu, Int.ofNat_lt, ha]
      rcases lt_trichotomy i k with hlt | rfl | hgt
      · have hle := hextents.finish_le hs hu (hascending i k s u hs hu hlt)
        refine ⟨fun _ => hlt, fun _ => Nat.lt_of_le_of_ne hle fun heq => ?_⟩
        refine hnone ⟨k, u, hu, ?_⟩
        have hcontains := u.contains_addr (hextents.mem_pos hu)
        rwa [← UInt32.toNat_inj.mp (ha.trans heq)] at hcontains
      · rw [hs] at hu
        cases hu
        unfold Symbol.finish
        omega
      · have hlt := hascending k i u s hu hs hgt
        unfold Symbol.finish
        omega
  have hij : i < j := by
    rcases lt_trichotomy i j with hlt | rfl | hgt
    · exact hlt
    · rw [hs] at ht
      cases ht
      exact absurd hcontains.2 (by omega)
    · have hle := hextents.finish_le ht hs (hascending j i t s ht hs hgt)
      have hhigh := hcontains.2
      unfold Symbol.finish at ha hle hhigh
      omega
  have haddr : t.addr.toNat = s.finish := by
    have hle := hextents.finish_le hs ht (hascending i j s t hs ht hij)
    have hlow := hcontains.1
    omega
  obtain rfl := hextents.next_index hascending hs ht hij haddr
  have hlength := (List.getElem?_eq_some_iff.mp ht).1
  refine .inr ⟨t, ht, haddr, (not_mem_path_iff syms.length (Int.natCast_nonneg i) (by omega)).mp ?_⟩
  intro hpath
  have hlook := h.look htable hextents ht hcontains
  have hfalse := hit_path_eq_false hlook (fun k hk => by
    have hk' := mem_path (by omega) (by omega) hk
    exact htable.below_iff_lt hextents hascending ht hcontains hk'.1 hk'.2) hpath
  rw [hhit] at hfalse
  cases hfalse

end

section Enough

variable (htable : Table m limit syms) (hextents : Extents syms)
  (hsize : ∀ (i : Nat) (s : Symbol), syms[i]? = some s → s.size.toNat ≤ 4080 ∧ s.covered < 2 ^ 32)
  (hcovers : ∀ (i : Nat) (s : Symbol), syms[i]? = some s → Covers syms i s)
include htable hextents hsize hcovers

end Enough

end Lookup

section Generator

def NmSymbol.Contains (s : NmSymbol) (a : UInt32) : Prop :=
  s.addr.toNat ≤ a.toNat ∧ a.toNat < s.addr.toNat + s.size.toNat

/-- Text symbols with addresses of their own and no address in common. -/
structure Valid (lines : List NmSymbol) : Prop where
  distinct : (lines.filter NmSymbol.isText).Pairwise fun s t => s.addr ≠ t.addr
  disjoint : (lines.filter NmSymbol.isText).Pairwise fun s t => ∀ a, s.Contains a → ¬ t.Contains a

/-- Whatever `qsort` leaves, an address of a text symbol gives its name and the offset, and any other
address gives nothing. -/
def Resolves (lines : List NmSymbol) : Prop :=
  ∀ sorted, Qsort symCmp (readSymbols lines) sorted → ∀ a : UInt32,
    (∀ s ∈ lines, s.isText = true → s.Contains a →
      (lookupIn sorted a).map (fun found => (found.name, found.offset)) =
        some (s.name.bytes, a - s.addr)) ∧
    ((∀ s ∈ lines, s.isText = true → ¬ s.Contains a) → lookupIn sorted a = none)

def textSymbols (lines : List NmSymbol) : List NmSymbol :=
  lines.filter fun s => s.isText && s.size != 0

def rank (syms : List NmSymbol) (s : NmSymbol) : Nat :=
  syms.countP fun t => decide (t.addr.toNat < s.addr.toNat)

end Generator

section Sorting

variable {syms sorted : List Symbol} {s t : Symbol}

theorem exists_qsort (cmp : Symbol → Symbol → Int) (syms : List Symbol) : ∃ sorted, Qsort cmp syms sorted := by
  by_cases hconsistent : Consistent cmp syms
  · let le (a b : { s // s ∈ syms }) : Bool := decide (cmp a.1 b.1 ≤ 0)
    have htrans (a b c : { s // s ∈ syms }) (hab : le a b = true) (hbc : le b c = true) :
        le a c = true :=
      decide_eq_true (hconsistent.trans a.1 a.2 b.1 b.2 c.1 c.2 (of_decide_eq_true hab)
        (of_decide_eq_true hbc))
    have htotal (a b : { s // s ∈ syms }) : (le a b || le b a) = true := by
      rw [Bool.or_eq_true]
      by_cases hab : cmp a.1 b.1 ≤ 0
      · exact .inl (decide_eq_true hab)
      · have hba := (hconsistent.antisymm b.1 b.2 a.1 a.2).mpr (Int.not_le.mp hab)
        exact .inr (decide_eq_true (Int.le_of_lt hba))
    refine ⟨(syms.attach.mergeSort le).map Subtype.val,
      { perm := ?_
        order := fun _ => ?_ }⟩
    · have hperm := (mergeSort_perm syms.attach le).map Subtype.val
      rwa [List.attach_map_subtype_val] at hperm
    · refine pairwise_map.mpr ((pairwise_mergeSort htrans htotal syms.attach).imp ?_)
      exact fun h => of_decide_eq_true h
  · exact ⟨syms,
      { perm := List.Perm.refl _
        order := fun h => absurd h hconsistent }⟩

theorem symCmp_eq (s t : Symbol) : symCmp s t =
    if 2 * (s.addr - t.addr).toNat < 2 ^ 32 then ((s.addr - t.addr).toNat : Int)
    else (s.addr - t.addr).toNat - 2 ^ 32 := BitVec.toInt_eq_toNat_cond _

theorem symCmp_of_span (h : s.addr.toNat < t.addr.toNat + 2 ^ 31)
    (h' : t.addr.toNat < s.addr.toNat + 2 ^ 31) : symCmp s t = s.addr.toNat - t.addr.toNat := by
  have ht := t.addr.toNat_lt
  rw [symCmp_eq, UInt32.toNat_sub]
  split <;> omega

theorem consistent_of_span
    (h : ∀ s ∈ syms, ∀ t ∈ syms, s.addr.toNat < t.addr.toNat + 2 ^ 31) : Consistent symCmp syms :=
  { antisymm := fun s hs t ht => by
      rw [symCmp_of_span (h s hs t ht) (h t ht s hs), symCmp_of_span (h t ht s hs) (h s hs t ht)]
      omega
    trans := fun s hs t ht u hu => by
      rw [symCmp_of_span (h s hs t ht) (h t ht s hs), symCmp_of_span (h t ht u hu) (h u hu t ht),
        symCmp_of_span (h s hs u hu) (h u hu s hs)]
      omega }

theorem Extents.perm (h : Extents syms) (hperm : sorted.Perm syms) : Extents sorted :=
  { pos := fun s hs => h.pos s (hperm.mem_iff.mp hs)
    disjoint := (hperm.pairwise_iff fun hst a ha hb => hst a hb ha).mpr h.disjoint }

theorem Qsort.ascending (h : Qsort symCmp syms sorted) (hextents : Extents syms)
    (hspan : ∀ s ∈ syms, ∀ t ∈ syms, s.addr.toNat < t.addr.toNat + 2 ^ 31) : Ascending sorted := by
  intro i j s t hs ht hij
  have hs' := h.perm.mem_iff.mp (mem_of_getElem? hs)
  have ht' := h.perm.mem_iff.mp (mem_of_getElem? ht)
  have hcmp : symCmp s t ≤ 0 := by
    obtain ⟨hi, rfl⟩ := List.getElem?_eq_some_iff.mp hs
    obtain ⟨hj, rfl⟩ := List.getElem?_eq_some_iff.mp ht
    exact pairwise_iff_getElem.mp (h.order (consistent_of_span hspan)) i j hi hj hij
  rw [symCmp_of_span (hspan s hs' t ht') (hspan t ht' s hs')] at hcmp
  refine Nat.lt_of_le_of_ne (by omega) fun heq => ?_
  exact absurd ((hextents.perm h.perm).index_eq hs ht (UInt32.toNat_inj.mp heq)) hij.ne

end Sorting

section Reading

variable {lines : List NmSymbol} {sorted : List Symbol}

def NmSymbol.read (s : NmSymbol) : Symbol :=
  { addr := s.addr
    size := s.size
    name := s.name.bytes.take maxName }

theorem readSymbols_eq (lines : List NmSymbol) :
    readSymbols lines = ((textSymbols lines).take maxSymbols).map NmSymbol.read := rfl

theorem zero_not_mem_word {bytes : List UInt8} (h : ∀ c ∈ bytes, isWord c = true) : (0 : UInt8) ∉ bytes :=
  fun hzero => absurd (h 0 hzero) (by decide)

theorem mem_textSymbols {s : NmSymbol} :
    s ∈ textSymbols lines ↔ s ∈ lines ∧ s.isText = true ∧ 0 < s.size.toNat := by
  have hsize : (s.size != 0) = true ↔ 0 < s.size.toNat := by
    rw [bne_iff_ne, ne_eq, ← UInt32.toNat_inj, Nat.pos_iff_ne_zero]
    rfl
  unfold textSymbols
  rw [mem_filter, Bool.and_eq_true, hsize]

theorem Valid.pairwise (h : Valid lines) : (textSymbols lines).Pairwise fun s t =>
    s.addr ≠ t.addr ∧ ∀ a, s.Contains a → ¬ t.Contains a := by
  have hsub : (textSymbols lines).Sublist (lines.filter NmSymbol.isText) := by
    unfold textSymbols
    rw [← List.filter_filter]
    exact filter_sublist.filter _
  exact (h.distinct.and h.disjoint).sublist hsub

theorem mem_readSymbols {s : Symbol} (h : s ∈ readSymbols lines) : ∃ t ∈ textSymbols lines, t.read = s := by
  obtain ⟨t, ht, heq⟩ := mem_map.mp h
  exact ⟨t, mem_of_mem_take ht, heq⟩

theorem table_readSymbols (hperm : sorted.Perm (readSymbols lines)) :
    Table (memOf (assemble (genKallsyms sorted))) (assemble (genKallsyms sorted)).length sorted := by
  have hread (s : Symbol) (hs : s ∈ sorted) : ∃ t ∈ textSymbols lines, t.read = s :=
    mem_readSymbols (hperm.mem_iff.mp hs)
  refine table_genKallsyms ?_ (fun s hs => ?_) fun s hs => ?_
  · rw [hperm.length_eq, readSymbols_eq, length_map]
    exact length_take_le _ _
  · obtain ⟨t, -, rfl⟩ := hread s hs
    exact length_take_le _ _
  · obtain ⟨t, -, rfl⟩ := hread s hs
    exact fun hzero => zero_not_mem_word t.name.word (mem_of_mem_take hzero)

theorem Resolves.first (h : Resolves lines) (hsorted : Qsort symCmp (readSymbols lines) sorted)
    {s : NmSymbol} (hs : s ∈ textSymbols lines) :
    ∃ t ∈ readSymbols lines, t.addr = s.addr ∧ t.name = s.name.bytes := by
  obtain ⟨hline, htext, hpos⟩ := mem_textSymbols.mp hs
  have hlookup := (h sorted hsorted s.addr).1 s hline htext ⟨le_rfl, Nat.lt_add_of_pos_right hpos⟩
  obtain ⟨found, hfound, heq⟩ := map_eq_some_iff.mp hlookup
  obtain ⟨i, t, ht, -, hname, hoffset⟩ := (table_readSymbols hsorted.perm).found_lookup hfound
  refine ⟨t, hsorted.perm.mem_iff.mp (mem_of_getElem? ht), ?_, ?_⟩
  · have hsub : s.addr - t.addr = s.addr - s.addr := hoffset.symm.trans (congrArg Prod.snd heq)
    exact sub_right_injective hsub
  · exact hname.symm.trans (congrArg Prod.fst heq)

theorem Resolves.count (h : Resolves lines) (hvalid : Valid lines) :
    (textSymbols lines).length ≤ maxSymbols := by
  by_contra hlong
  obtain ⟨sorted, hsorted⟩ := exists_qsort symCmp (readSymbols lines)
  have hlast : maxSymbols < (textSymbols lines).length := not_le.mp hlong
  obtain ⟨t, ht, haddr, -⟩ := h.first hsorted (getElem_mem hlast)
  obtain ⟨u, hu, rfl⟩ := mem_map.mp ht
  obtain ⟨i, hi⟩ := getElem?_of_mem hu
  rw [getElem?_take] at hi
  split at hi
  · obtain ⟨hi', rfl⟩ := List.getElem?_eq_some_iff.mp hi
    exact (pairwise_iff_getElem.mp hvalid.pairwise i maxSymbols hi' hlast ‹_›).1 haddr
  · cases hi

theorem Resolves.name (h : Resolves lines) {s : NmSymbol} (hs : s ∈ textSymbols lines) :
    s.name.bytes.length ≤ maxName := by
  obtain ⟨sorted, hsorted⟩ := exists_qsort symCmp (readSymbols lines)
  obtain ⟨t, ht, -, hname⟩ := h.first hsorted hs
  obtain ⟨u, -, rfl⟩ := mem_readSymbols ht
  rw [← hname]
  exact length_take_le _ _

section Small

variable (hcount : (textSymbols lines).length ≤ maxSymbols)
  (hname : ∀ s ∈ textSymbols lines, s.name.bytes.length ≤ maxName)
include hcount

include hname

end Small

end Reading

def trialName (c : UInt8) (h : isWord c = true) : SymbolName :=
  { bytes := [c]
    nonempty := nofun
    word := fun d hd => by
      rw [mem_singleton.mp hd]
      exact h }

def trialSymbol (addr size : UInt32) (c : UInt8) (h : isWord c = true) : NmSymbol :=
  { addr := addr
    size := size
    type := 84
    name := trialName c h }

end JexOs.Kallsyms
