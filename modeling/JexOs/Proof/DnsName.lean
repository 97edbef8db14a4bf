import JexOs.Dns
import Mathlib.Data.List.TakeWhile

/-!
# DNS names

What `dns_encode_name` writes for every host name, also for an empty part between dots, and that
`dns_skip_name` passes over labels one by one.
-/

namespace JexOs.Net

open ByteMem Tcp List Option

def labelBytes (label : List UInt8) : List UInt8 := UInt8.ofNat label.length :: label

def wireLabels (labels : List (List UInt8)) : List UInt8 := labels.flatMap labelBytes

def wireName (labels : List (List UInt8)) : List UInt8 := wireLabels labels ++ [0]

def ValidLabel (label : List UInt8) : Prop := 0 < label.length ∧ label.length ≤ 63

section Wire

variable {label : List UInt8} {labels : List (List UInt8)}

@[simp]
theorem wireLabels_nil : wireLabels [] = [] := rfl

@[simp]
theorem wireLabels_cons : wireLabels (label :: labels) = labelBytes label ++ wireLabels labels := rfl

@[simp]
theorem length_labelBytes : (labelBytes label).length = label.length + 1 := rfl

theorem length_le_wireLabels (labels : List (List UInt8)) : labels.length ≤ (wireLabels labels).length := by
  induction labels with
  | nil => exact Nat.le_refl 0
  | cons label labels ih =>
    rw [wireLabels_cons, length_append, length_labelBytes, length_cons]
    omega

theorem ValidLabel.byte (h : ValidLabel label) : UInt8.ofNat label.length ≠ 0 ∧
    UInt8.ofNat label.length &&& 0xC0 ≠ 0xC0 ∧ (UInt8.ofNat label.length).toNat = label.length := by
  have hall : ∀ n < 64, 0 < n → UInt8.ofNat n ≠ 0 ∧ UInt8.ofNat n &&& 0xC0 ≠ 0xC0 ∧
      (UInt8.ofNat n).toNat = n := by decide
  exact hall label.length (Nat.lt_succ_of_le h.2) h.1

end Wire

section Skip

variable {msg before after : List UInt8} {fuel offset : Nat} {label : UInt8}

theorem dnsSkipName_root (h : msg[offset]? = some 0) :
    dnsSkipName msg (fuel + 1) offset = some (cInt (offset + 1)) := by
  rw [dnsSkipName, if_pos (List.getElem?_eq_some_iff.mp h).1, h]
  rfl

theorem dnsSkipName_pointer (h : msg[offset]? = some label) (hpointer : label &&& 0xC0 = 0xC0) :
    dnsSkipName msg (fuel + 1) offset = some (cInt (offset + 2)) := by
  have hzero : label ≠ 0 := by
    rintro rfl
    cases hpointer
  rw [dnsSkipName, if_pos (List.getElem?_eq_some_iff.mp h).1, h]
  dsimp only
  rw [if_neg hzero, if_pos hpointer]

theorem dnsSkipName_label (h : msg[offset]? = some label) (hzero : label ≠ 0)
    (hpointer : label &&& 0xC0 ≠ 0xC0) : dnsSkipName msg (fuel + 1) offset =
      dnsSkipName msg fuel ((offset + 1 + label.toNat) % 2 ^ 32) := by
  rw [dnsSkipName, if_pos (List.getElem?_eq_some_iff.mp h).1, h]
  dsimp only
  rw [if_neg hzero, if_neg hpointer]

theorem dnsSkipName_labels {labels : List (List UInt8)} (hvalid : ∀ l ∈ labels, ValidLabel l)
    (hmsg : msg = before ++ (wireLabels labels ++ after)) (hlength : msg.length < 2 ^ 32) :
    dnsSkipName msg (fuel + labels.length) before.length =
      dnsSkipName msg fuel (before ++ wireLabels labels).length := by
  induction labels generalizing before with
  | nil => rw [wireLabels_nil, append_nil, length_nil, Nat.add_zero]
  | cons l labels ih =>
    obtain ⟨hzero, hpointer, hbyte⟩ := (hvalid l mem_cons_self).byte
    have hnext : msg = (before ++ labelBytes l) ++ (wireLabels labels ++ after) := by
      rw [hmsg, wireLabels_cons, append_assoc, append_assoc]
    have hread : msg[before.length]? = some (UInt8.ofNat l.length) := by
      rw [hmsg, getElem?_append_right le_rfl, Nat.sub_self]
      rfl
    have hoffset : (before.length + 1 + (UInt8.ofNat l.length).toNat) % 2 ^ 32 =
        (before ++ labelBytes l).length := by
      have htotal := congrArg List.length hnext
      rw [length_append, length_append, length_labelBytes] at htotal
      rw [hbyte, length_append, length_labelBytes, Nat.mod_eq_of_lt (by omega)]
      omega
    rw [length_cons, ← Nat.add_assoc, dnsSkipName_label hread hzero hpointer, hoffset,
      ih (fun l' hl' => hvalid l' (mem_cons_of_mem _ hl')) hnext, wireLabels_cons,
      append_assoc]

end Skip

/-- The labels that a host name stands for: its parts between dots, where an empty one behind the last
dot stands for the root. -/
def labelsOf (hostname : List UInt8) : List (List UInt8) :=
  let parts := hostname.splitOn dot
  if parts.getLast? = some [] then parts.dropLast else parts

section Parts

variable {hostname : List UInt8}

theorem while_not_mem (hdot : dot ∉ hostname) :
    hostname.takeWhile (· ≠ dot) = hostname ∧ hostname.dropWhile (· ≠ dot) = [] := by
  have hneq : ∀ a ∈ hostname, decide (a ≠ dot) = true := fun a ha => decide_eq_true fun h => hdot (h ▸ ha)
  exact ⟨takeWhile_eq_self_iff.mpr hneq, dropWhile_eq_nil_iff.mpr hneq⟩

theorem splitOn_dot (hostname : List UInt8) : hostname.splitOn dot = hostname.takeWhile (· ≠ dot) ::
      if dot ∈ hostname then (hostname.dropWhile (· ≠ dot)).tail.splitOn dot else [] := by
  by_cases hdot : dot ∈ hostname
  · obtain ⟨s, t, rfl, hs⟩ := eq_append_cons_of_mem hdot
    have hneq : ∀ a ∈ s, decide (a ≠ dot) = true := fun a ha => decide_eq_true fun h => hs (h ▸ ha)
    rw [if_pos hdot, splitOn_append_cons_self_of_not_mem hs, takeWhile_append_of_pos hneq,
      dropWhile_append_of_pos hneq, takeWhile_cons_of_neg (by simp),
      dropWhile_cons_of_neg (by simp), append_nil, tail_cons]
  · rw [if_neg hdot, splitOn_eq_singleton hdot, (while_not_mem hdot).1]

theorem labelsOf_nil : labelsOf [] = [] := rfl

theorem labelsOf_of_ne_nil (h : hostname ≠ []) : labelsOf hostname =
    hostname.takeWhile (· ≠ dot) :: labelsOf (hostname.dropWhile (· ≠ dot)).tail := by
  unfold labelsOf
  rw [splitOn_dot hostname]
  by_cases hdot : dot ∈ hostname
  · rw [if_pos hdot]
    have hrest := splitOn_ne_nil dot (hostname.dropWhile (· ≠ dot)).tail
    generalize (hostname.dropWhile (· ≠ dot)).tail.splitOn dot = rest at hrest
    cases rest with
    | nil => exact absurd rfl hrest
    | cons part rest =>
      dsimp only
      rw [getLast?_cons_cons, dropLast_cons_cons]
      split <;> rfl
  · rw [if_neg hdot, (while_not_mem hdot).1, (while_not_mem hdot).2]
    dsimp only
    rw [getLast?_singleton, if_neg fun hempty => h (some.inj hempty)]
    rfl

theorem encodeLabels_eq (outLen : Nat) (out hostname : List UInt8) : encodeLabels outLen out hostname =
      if (∀ l ∈ labelsOf hostname, l.length ≤ 63) ∧
          (labelsOf hostname = [] ∨ out.length + (wireLabels (labelsOf hostname)).length + 1 ≤ outLen)
        then some (out ++ wireLabels (labelsOf hostname)) else none := by
  induction out, hostname using encodeLabels.induct outLen with
  | case1 out =>
    rw [encodeLabels, dif_pos rfl, labelsOf_nil,
      if_pos ⟨fun l hl => absurd hl not_mem_nil, .inl rfl⟩, wireLabels_nil, append_nil]
  | case2 out hostname hne label hlong =>
    have hmem : label ∈ labelsOf hostname := by
      rw [labelsOf_of_ne_nil hne]
      exact mem_cons_self
    rw [encodeLabels, dif_neg hne, if_pos hlong, if_neg fun h => absurd (h.1 label hmem) (by omega)]
  | case3 out hostname hne label hshort hfull =>
    rw [encodeLabels, dif_neg hne, if_neg hshort, if_pos hfull, labelsOf_of_ne_nil hne]
    refine (if_neg fun h => ?_).symm
    have hfits := h.2.resolve_left (cons_ne_nil _ _)
    rw [wireLabels_cons, length_append, length_labelBytes] at hfits
    change out.length + (label.length + 1 + _) + 1 ≤ outLen at hfits
    omega
  | case4 out hostname hne label hshort hroom ih =>
    rw [encodeLabels, dif_neg hne, if_neg hshort, if_neg hroom, ih, labelsOf_of_ne_nil hne]
    generalize labelsOf (hostname.dropWhile (· ≠ dot)).tail = rest
    have hout : (out ++ [UInt8.ofNat label.length] ++ label).length = out.length + (label.length + 1) := by
      rw [length_append, length_append, length_singleton]
      omega
    have hbytes : out ++ [UInt8.ofNat label.length] ++ label ++ wireLabels rest =
        out ++ wireLabels (label :: rest) := by
      rw [wireLabels_cons, append_assoc, append_assoc]
      rfl
    rw [hout, hbytes]
    refine if_congr ?_ rfl rfl
    rw [forall_mem_cons, wireLabels_cons, length_append, length_labelBytes]
    have hlabel : label.length = (hostname.takeWhile (· ≠ dot)).length := rfl
    constructor
    · rintro ⟨hrest, hfits⟩
      refine ⟨⟨Nat.le_of_not_lt hshort, hrest⟩, .inr ?_⟩
      rcases hfits with rfl | hfits
      · rw [wireLabels_nil, length_nil]
        omega
      · omega
    · rintro ⟨⟨-, hrest⟩, hfits⟩
      have hfits := hfits.resolve_left (cons_ne_nil _ _)
      exact ⟨hrest, .inr (by omega)⟩

theorem dnsEncodeName_eq (hostname : List UInt8) (outLen : Nat) : dnsEncodeName hostname outLen =
      if (∀ l ∈ labelsOf hostname, l.length ≤ 63) ∧ (wireName (labelsOf hostname)).length ≤ outLen
        then some (wireName (labelsOf hostname)) else none := by
  have hlength : (wireName (labelsOf hostname)).length = (wireLabels (labelsOf hostname)).length + 1 := by
    rw [wireName, length_append, length_singleton]
  unfold dnsEncodeName
  rw [encodeLabels_eq, length_nil, Nat.zero_add, nil_append, hlength]
  by_cases hshort : ∀ l ∈ labelsOf hostname, l.length ≤ 63
  · by_cases hfits : (wireLabels (labelsOf hostname)).length + 1 ≤ outLen
    · rw [if_pos ⟨hshort, .inr hfits⟩, if_pos ⟨hshort, hfits⟩]
      change (if _ then _ else _) = _
      rw [if_neg (by omega)]
      rfl
    · rw [if_neg (c := _ ∧ (wireLabels (labelsOf hostname)).length + 1 ≤ outLen) fun h => hfits h.2]
      by_cases hnone : labelsOf hostname = []
      · rw [if_pos ⟨hshort, .inl hnone⟩]
        change (if _ then _ else _) = _
        rw [if_pos (by omega)]
      · rw [if_neg fun h => hfits (h.2.resolve_left hnone)]
        rfl
  · rw [if_neg fun h => hshort h.1, if_neg fun h => hshort h.1]
    rfl

end Parts

def Refuses (hostname : List UInt8) (outLen : UInt32) : Prop :=
  (∃ l ∈ labelsOf hostname, 63 < l.length) ∨ outLen.toNat < (wireName (labelsOf hostname)).length ∨
    2 ^ 31 ≤ (wireName (labelsOf hostname)).length

/-- What is written fits the buffer and is the name of these labels, all of which `dns_skip_name` passes over. -/
def EncodesTo (labels : List (List UInt8)) (hostname : List UInt8) (outLen : UInt32) : Prop :=
  ∀ out, dnsEncodeName hostname outLen.toNat = some out → 0 ≤ cInt out.length →
    out.length ≤ outLen.toNat ∧ (∀ l ∈ labels, ValidLabel l) ∧ out = wireName labels ∧
      ∀ fuel, out.length ≤ fuel → dnsSkipName out fuel 0 = some (cInt out.length)

section Names

variable {labels : List (List UInt8)} {hostname : List UInt8} {outLen : UInt32}

theorem cInt_nonneg {n : Nat} (h : n < 2 ^ 31) : 0 ≤ cInt n := by
  unfold cInt
  rw [Int.bmod_def]
  omega

theorem dnsEncodeName_of_not_refuses (h : ¬ Refuses hostname outLen) :
    dnsEncodeName hostname outLen.toNat = some (wireName (labelsOf hostname)) ∧
      (∀ l ∈ labelsOf hostname, l.length ≤ 63) ∧
      (wireName (labelsOf hostname)).length ≤ outLen.toNat ∧
      (wireName (labelsOf hostname)).length < 2 ^ 31 := by
  obtain ⟨hlong, hrest⟩ := not_or.mp h
  obtain ⟨hfits, hsmall⟩ := not_or.mp hrest
  have hshort : ∀ l ∈ labelsOf hostname, l.length ≤ 63 := fun l hl => Nat.le_of_not_lt fun h =>
    hlong ⟨l, hl, h⟩
  refine ⟨?_, hshort, Nat.le_of_not_lt hfits, Nat.lt_of_not_le hsmall⟩
  rw [dnsEncodeName_eq, if_pos ⟨hshort, Nat.le_of_not_lt hfits⟩]

theorem wireName_skip (hvalid : ∀ l ∈ labels, ValidLabel l) (hlength : (wireName labels).length < 2 ^ 32)
    {fuel : Nat} (hfuel : (wireName labels).length ≤ fuel) :
    dnsSkipName (wireName labels) fuel 0 = some (cInt (wireName labels).length) := by
  have hle := length_le_wireLabels labels
  have hlast : (wireName labels).length = (wireLabels labels).length + 1 := by
    rw [wireName, length_append, length_singleton]
  obtain ⟨more, rfl⟩ : ∃ more, fuel = more + 1 + labels.length := ⟨fuel - 1 - labels.length, by omega⟩
  have hskip := @dnsSkipName_labels (wireName labels) [] [0] (more + 1) labels hvalid rfl hlength
  rw [nil_append, length_nil] at hskip
  rw [hskip, dnsSkipName_root, hlast]
  rw [wireName, getElem?_append_right le_rfl, Nat.sub_self]
  rfl

theorem Refuses.encodesTo (h : Refuses hostname outLen) (labels : List (List UInt8)) :
    EncodesTo labels hostname outLen := by
  intro out hout hnonneg
  exfalso
  rw [dnsEncodeName_eq] at hout
  by_cases haccepted : (∀ l ∈ labelsOf hostname, l.length ≤ 63) ∧
    (wireName (labelsOf hostname)).length ≤ outLen.toNat
  · rw [if_pos haccepted] at hout
    obtain rfl := some.inj hout
    rcases h with ⟨l, hl, hlong⟩ | hfull | hlarge
    · exact absurd (haccepted.1 l hl) (Nat.not_le_of_lt hlong)
    · exact absurd haccepted.2 (Nat.not_le_of_lt hfull)
    · have hword := outLen.toNat_lt
      unfold cInt at hnonneg
      rw [Int.bmod_def] at hnonneg
      omega
  · rw [if_neg haccepted] at hout
    cases hout

theorem not_encodesTo_of_empty (h : ¬ Refuses hostname outLen) (hempty : [] ∈ labels) :
    ¬ EncodesTo labels hostname outLen := by
  intro hencodes
  obtain ⟨hout, -, -, hsmall⟩ := dnsEncodeName_of_not_refuses h
  obtain ⟨-, hvalid, -⟩ := hencodes _ hout (cInt_nonneg hsmall)
  exact absurd (hvalid [] hempty).1 (lt_irrefl 0)

theorem encodesTo_labelsOf (h : ¬ Refuses hostname outLen) (hparts : [] ∉ labelsOf hostname) :
    EncodesTo (labelsOf hostname) hostname outLen := by
  intro out hout _
  obtain ⟨heq, hshort, hfits, hsmall⟩ := dnsEncodeName_of_not_refuses h
  obtain rfl : wireName (labelsOf hostname) = out := some.inj (heq.symm.trans hout)
  have hvalid : ∀ l ∈ labelsOf hostname, ValidLabel l := fun l hl =>
    ⟨length_pos_iff.mpr fun hnil => hparts (hnil ▸ hl), hshort l hl⟩
  exact ⟨hfits, hvalid, rfl, fun fuel hfuel => wireName_skip hvalid (by omega) hfuel⟩

theorem labelsOf_eq_splitOn (h : [] ∉ hostname.splitOn dot) : labelsOf hostname = hostname.splitOn dot := by
  exact if_neg fun hlast => h (mem_of_getLast? hlast)

end Names

/-- The labels are the parts of the host name exactly where it is refused or no part is empty. -/
theorem encodesTo_iff (hostname : List UInt8)
    (outLen : UInt32) : (EncodesTo (labelsOf hostname) hostname outLen ↔
      Refuses hostname outLen ∨ [] ∉ labelsOf hostname) ∧ (EncodesTo (hostname.splitOn dot) hostname outLen ↔
      Refuses hostname outLen ∨ [] ∉ hostname.splitOn dot) := by
  by_cases hrefuses : Refuses hostname outLen
  · exact ⟨⟨fun _ => .inl hrefuses, fun _ => hrefuses.encodesTo _⟩,
      fun _ => .inl hrefuses, fun _ => hrefuses.encodesTo _⟩
  · refine ⟨⟨fun h => .inr fun hempty => not_encodesTo_of_empty hrefuses hempty h, fun h => ?_⟩,
      fun h => .inr fun hempty => not_encodesTo_of_empty hrefuses hempty h, fun h => ?_⟩
    · exact encodesTo_labelsOf hrefuses (h.resolve_left hrefuses)
    · have hparts := h.resolve_left hrefuses
      have hsame := labelsOf_eq_splitOn hparts
      rw [← hsame] at hparts ⊢
      exact encodesTo_labelsOf hrefuses hparts

/-- `a..b` is written with an empty label between the others, where `dns_skip_name` stops. -/
theorem not_encodesTo_empty : dnsEncodeName [97, 46, 46, 98] 496 = some [1, 97, 0, 1, 98, 0] ∧
      dnsSkipName [1, 97, 0, 1, 98, 0] 7 0 = some 3 ∧
      ¬ EncodesTo (labelsOf [97, 46, 46, 98]) [97, 46, 46, 98] 496 ∧
      ¬ EncodesTo ([97, 46, 46, 98].splitOn dot) [97, 46, 46, 98] 496 := by
  have hlabels : labelsOf [97, 46, 46, 98] = [[97], [], [98]] := by decide
  have hrefuses : ¬ Refuses [97, 46, 46, 98] 496 := by
    unfold Refuses
    decide
  refine ⟨?_, by decide, not_encodesTo_of_empty hrefuses ?_, not_encodesTo_of_empty hrefuses ?_⟩
  · rw [dnsEncodeName_eq, hlabels]
    decide
  · decide
  · decide

end JexOs.Net
