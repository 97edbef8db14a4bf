import JexOs.Proof.DnsName

/-!
# Where the query of `net_dns_resolve` is written

The space that is handed to `dns_encode_name` wraps, so what keeps the query inside its array is the host
name alone.
-/

namespace JexOs.Net

open List

section Written

variable {outLen : Nat} {out hostname : List UInt8}

def shortLabels (hostname : List UInt8) : List (List UInt8) :=
  (labelsOf hostname).takeWhile fun label => label.length ≤ 63

theorem shortLabels_of_ne_nil (h : hostname ≠ []) : shortLabels hostname =
      if (hostname.takeWhile (· ≠ dot)).length ≤ 63 then
        hostname.takeWhile (· ≠ dot) :: shortLabels (hostname.dropWhile (· ≠ dot)).tail
      else [] := by
  rw [shortLabels, labelsOf_of_ne_nil h]
  by_cases hshort : (hostname.takeWhile (· ≠ dot)).length ≤ 63
  · rw [if_pos hshort]
    exact takeWhile_cons_of_pos (p := fun l : List UInt8 => decide (l.length ≤ 63)) (decide_eq_true hshort)
  · rw [if_neg hshort]
    exact takeWhile_cons_of_neg (p := fun l : List UInt8 => decide (l.length ≤ 63)) fun h =>
      hshort (of_decide_eq_true h)

theorem writtenLabels_eq (outLen : Nat) (out hostname : List UInt8) :
    ∃ labels, labels <+: shortLabels hostname ∧
      writtenLabels outLen out hostname = out ++ wireLabels labels ∧
      (labels = shortLabels hostname ∨ outLen < out.length + (wireLabels labels).length + 65 + 1) := by
  induction out, hostname using writtenLabels.induct outLen with
  | case1 out =>
    refine ⟨[], nil_prefix, ?_, .inl rfl⟩
    rw [writtenLabels, dif_pos rfl, wireLabels_nil, append_nil]
  | case2 out hostname hne label hlong =>
    have hnone : shortLabels hostname = [] := by
      rw [shortLabels_of_ne_nil hne]
      exact if_neg (Nat.not_le_of_lt hlong)
    refine ⟨[], nil_prefix, ?_, .inl hnone.symm⟩
    rw [writtenLabels, dif_neg hne, if_pos hlong, wireLabels_nil, append_nil]
  | case3 out hostname hne label hshort hfull =>
    refine ⟨[], nil_prefix, ?_, .inr ?_⟩
    · rw [writtenLabels, dif_neg hne, if_neg hshort, if_pos hfull, wireLabels_nil, append_nil]
    · omega
  | case4 out hostname hne label hshort hroom ih =>
    obtain ⟨labels, hleading, hwritten, hend⟩ := ih
    have hlabels : shortLabels hostname =
        label :: shortLabels (hostname.dropWhile (· ≠ dot)).tail := by
      rw [shortLabels_of_ne_nil hne]
      exact if_pos (Nat.le_of_not_lt hshort)
    refine ⟨label :: labels, ?_, ?_, ?_⟩
    · rw [hlabels]
      exact prefix_cons_inj label |>.mpr hleading
    · rw [writtenLabels, dif_neg hne, if_neg hshort, if_neg hroom, hwritten, wireLabels_cons,
        append_assoc, append_assoc]
      rfl
    · rcases hend with rfl | hend
      · exact .inl hlabels.symm
      · refine .inr ?_
        rw [length_append, length_append, length_singleton] at hend
        rw [wireLabels_cons, length_append, length_labelBytes]
        omega

end Written

/-- Whatever the transaction, the bytes that are written, which are also those that are sent, are in the
512 bytes of the array. -/
def QueryInside (hostname : List UInt8) : Prop :=
  ∀ xid, (dnsQueryWritten xid hostname).1.length ≤ dnsQuerySize

def NameFits (hostname : List UInt8) : Prop :=
  12 + (wireLabels (shortLabels hostname)).length ≤ 512 ∧
    ((∀ label ∈ labelsOf hostname, label.length ≤ 63) → 12 + (wireName (labelsOf hostname)).length + 4 ≤ 512)

section Inside

variable {hostname : List UInt8}

theorem shortLabels_of_short (h : ∀ label ∈ labelsOf hostname, label.length ≤ 63) :
    shortLabels hostname = labelsOf hostname :=
  takeWhile_eq_self_iff.mpr fun label hlabel => decide_eq_true (h label hlabel)

theorem wireLabels_prefix {labels labels' : List (List UInt8)} (h : labels <+: labels') :
    (wireLabels labels).length ≤ (wireLabels labels').length := by
  obtain ⟨rest, rfl⟩ := h
  unfold wireLabels
  rw [flatMap_append, length_append]
  exact Nat.le_add_right _ _

theorem length_wireName (labels : List (List UInt8)) :
    (wireName labels).length = (wireLabels labels).length + 1 := by
  rw [wireName, length_append, length_singleton]

theorem length_refused {xid : UInt16} (h : dnsEncodeName hostname dnsNameRoom.toNat = none) :
    (dnsQueryWritten xid hostname).1.length = 12 + (writtenLabels dnsNameRoom.toNat [] hostname).length := by
  unfold dnsQueryWritten
  rw [h]
  exact length_append

theorem written_short (hshort : ∀ label ∈ labelsOf hostname, label.length ≤ 63)
    (hsmall : (wireName (labelsOf hostname)).length < 2 ^ 31) (xid : UInt16) :
    (dnsQueryWritten xid hostname).1.length = 12 + (wireName (labelsOf hostname)).length + 4 ∧
      (dnsQueryWritten xid hostname).2 = true := by
  have hroom : dnsNameRoom.toNat = 4294967284 := by decide
  have hencode := dnsEncodeName_eq hostname dnsNameRoom.toNat
  rw [if_pos ⟨hshort, by omega⟩] at hencode
  unfold dnsQueryWritten
  rw [hencode]
  dsimp only
  rw [if_neg (Nat.not_le_of_lt hsmall)]
  refine ⟨?_, rfl⟩
  rw [length_append, length_append, length_append]
  rfl

theorem refused_inside_iff {xid : UInt16} (h : dnsEncodeName hostname dnsNameRoom.toNat = none) :
    (dnsQueryWritten xid hostname).1.length ≤ dnsQuerySize ↔
    12 + (wireLabels (shortLabels hostname)).length ≤ 512 := by
  have hroom : dnsNameRoom.toNat = 4294967284 := by decide
  have hsize : dnsQuerySize = 512 := rfl
  obtain ⟨labels, hleading, hwritten, hend⟩ := writtenLabels_eq dnsNameRoom.toNat [] hostname
  have hle := wireLabels_prefix hleading
  rw [length_refused h, hwritten, nil_append]
  rcases hend with rfl | hend
  · omega
  · rw [length_nil] at hend
    omega

end Inside

/-- The query is written inside its array exactly where the name fits. -/
theorem queryInside_iff (hostname : List UInt8) : QueryInside hostname ↔ NameFits hostname := by
  have hroom : dnsNameRoom.toNat = 4294967284 := by decide
  have hsize : dnsQuerySize = 512 := rfl
  have hencode := dnsEncodeName_eq hostname dnsNameRoom.toNat
  have hlength := length_wireName (labelsOf hostname)
  unfold QueryInside NameFits
  by_cases hshort : ∀ label ∈ labelsOf hostname, label.length ≤ 63
  · have hsame := shortLabels_of_short hshort
    by_cases hfits : (wireName (labelsOf hostname)).length ≤ dnsNameRoom.toNat
    · rw [if_pos ⟨hshort, hfits⟩] at hencode
      by_cases hsmall : (wireName (labelsOf hostname)).length < 2 ^ 31
      · have hwritten := written_short hshort hsmall
        constructor
        · intro h
          have hinside := h 0
          rw [(hwritten 0).1] at hinside
          rw [hsame]
          exact ⟨by omega, fun _ => hinside⟩
        · intro h xid
          rw [(hwritten xid).1]
          exact h.2 hshort
      · constructor
        · intro h
          have hinside := h 0
          unfold dnsQueryWritten at hinside
          rw [hencode] at hinside
          dsimp only at hinside
          rw [if_pos (Nat.le_of_not_lt hsmall)] at hinside
          rw [length_append] at hinside
          omega
        · intro h
          have hname := h.2 hshort
          omega
    · rw [if_neg fun h => hfits h.2] at hencode
      constructor
      · intro h
        have hinside := (refused_inside_iff hencode).mp (h 0)
        rw [hsame] at hinside
        omega
      · intro h
        have hname := h.2 hshort
        omega
  · rw [if_neg fun h => hshort h.1] at hencode
    constructor
    · intro h
      exact ⟨(refused_inside_iff hencode).mp (h 0), fun hall => absurd hall hshort⟩
    · intro h xid
      exact (refused_inside_iff hencode).mpr h.1

def dotted (n : Nat) : List UInt8 := (List.replicate n [97, dot]).flatten

theorem labelsOf_dotted (n : Nat) : labelsOf (dotted n) = List.replicate n [97] := by
  induction n with
  | zero => exact labelsOf_nil
  | succ n ih =>
    have hcons : dotted (n + 1) = 97 :: dot :: dotted n := by
      rfl
    rw [hcons, labelsOf_of_ne_nil (cons_ne_nil _ _), replicate_succ, ← ih]
    rfl

theorem length_dotted (n : Nat) : (wireName (labelsOf (dotted n))).length = 2 * n + 1 := by
  rw [length_wireName, labelsOf_dotted]
  induction n with
  | zero => rfl
  | succ n ih =>
    rw [replicate_succ, wireLabels_cons, length_append, length_labelBytes, length_singleton]
    omega

/-- The query for 300 labels of one letter has 617 bytes and is sent. -/
theorem not_queryInside_dotted :
    (dnsQueryWritten 1 (dotted 300)).1.length = 617 ∧ (dnsQueryWritten 1 (dotted 300)).2 = true ∧
      ¬ QueryInside (dotted 300) := by
  have hshort : ∀ label ∈ labelsOf (dotted 300), label.length ≤ 63 := by
    intro label hlabel
    rw [labelsOf_dotted] at hlabel
    rw [eq_of_mem_replicate hlabel]
    decide
  have hlength := length_dotted 300
  obtain ⟨hwritten, hsent⟩ := written_short hshort (by omega) 1
  rw [hlength] at hwritten
  refine ⟨hwritten, hsent, fun h => ?_⟩
  have hinside := h 1
  rw [hwritten] at hinside
  exact absurd hinside (by decide)

end JexOs.Net
