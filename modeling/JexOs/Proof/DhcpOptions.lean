import JexOs.Dhcp

/-!
# The options of a message

The options begin behind the cookie, at offset 240; `dhcp_find_option` and `dhcp_send_msg` take them to
begin at 236.
-/

namespace JexOs.Dhcp

open ByteMem Tcp Net List Option

/-- In a list of options, the first one with the tag has its value at the offset. -/
inductive Finds (tag : UInt8) : List UInt8 → Nat → Prop where
  | here (len : UInt8) (rest : List UInt8) (hpad : tag ≠ dhcpOptPad) (hend : tag ≠ dhcpOptEnd)
      (hlen : len.toNat ≤ rest.length) : Finds tag (tag :: len :: rest) 2
  | pad (rest : List UInt8) (n : Nat) (h : Finds tag rest n) : Finds tag (dhcpOptPad :: rest) (1 + n)
  | skip (t len : UInt8) (rest : List UInt8) (n : Nat) (hpad : t ≠ dhcpOptPad)
      (hend : t ≠ dhcpOptEnd) (hne : t ≠ tag) (hlen : len.toNat ≤ rest.length)
      (h : Finds tag (rest.drop len.toNat) n) : Finds tag (t :: len :: rest) (2 + len.toNat + n)

section Grammar

variable {tag t len : UInt8} {rest : List UInt8} {k n : Nat}

theorem not_finds_nil : ¬ Finds tag [] n := by
  intro h
  cases h

theorem not_finds_end : ¬ Finds tag (dhcpOptEnd :: rest) n := by
  intro h
  generalize hopts : dhcpOptEnd :: rest = opts at h
  cases h with
  | here len rest hpad hend hlen =>
    cases hopts
    exact hend rfl
  | pad rest n h =>
    injection hopts with hhead
    exact absurd hhead (by decide)
  | skip t len rest n hpad hend hne hlen h =>
    cases hopts
    exact hend rfl

theorem finds_pad : Finds tag (dhcpOptPad :: rest) k ↔ ∃ n, k = 1 + n ∧ Finds tag rest n := by
  refine ⟨fun h => ?_, ?_⟩
  · generalize hopts : dhcpOptPad :: rest = opts at h
    cases h with
    | here len rest hpad hend hlen =>
      cases hopts
      exact absurd rfl hpad
    | pad rest n h =>
      cases hopts
      exact ⟨n, rfl, h⟩
    | skip t len rest n hpad hend hne hlen h =>
      cases hopts
      exact absurd rfl hpad
  · rintro ⟨n, rfl, h⟩
    exact .pad rest n h

theorem not_finds_single (hpad : t ≠ dhcpOptPad) : ¬ Finds tag [t] n := by
  intro h
  cases h with
  | pad n h => exact hpad rfl

theorem finds_option (hpad : t ≠ dhcpOptPad) (hend : t ≠ dhcpOptEnd) :
    Finds tag (t :: len :: rest) k ↔ len.toNat ≤ rest.length ∧
      if t = tag then k = 2 else ∃ n, k = 2 + len.toNat + n ∧ Finds tag (rest.drop len.toNat) n := by
  refine ⟨fun h => ?_, ?_⟩
  · generalize hopts : t :: len :: rest = opts at h
    cases h with
    | here len rest hpad' hend' hlen =>
      cases hopts
      exact ⟨hlen, by rw [if_pos rfl]⟩
    | pad rest n h =>
      injection hopts with hhead
      exact absurd hhead hpad
    | skip t len rest n hpad' hend' hne hlen h =>
      cases hopts
      refine ⟨hlen, ?_⟩
      rw [if_neg hne]
      exact ⟨n, rfl, h⟩
  · rintro ⟨hlen, h⟩
    split at h
    · rename_i heq
      cases heq
      cases h
      exact .here len rest hpad hend hlen
    · rename_i hne
      obtain ⟨n, rfl, h⟩ := h
      exact .skip t len rest n hpad hend hne hlen h

theorem Finds.unique {opts : List UInt8} {n' : Nat} (h : Finds tag opts n)
    (h' : Finds tag opts n') : n = n' := by
  induction h generalizing n' with
  | here len rest hpad hend hlen =>
    have := ((finds_option hpad hend).mp h').2
    rw [if_pos rfl] at this
    exact this.symm
  | pad rest n h ih =>
    obtain ⟨m, rfl, hm⟩ := finds_pad.mp h'
    rw [ih hm]
  | skip t len rest n hpad hend hne hlen h ih =>
    have := ((finds_option hpad hend).mp h').2
    rw [if_neg hne] at this
    obtain ⟨m, rfl, hm⟩ := this
    rw [ih hm]

end Grammar

section Walk

variable {msg : List UInt8} {tag : UInt8} {pos : Nat}

def passOf (tag : UInt8) (pos : Nat) : List UInt8 → Walk
  | [] => .absent
  | t :: rest =>
    if t = dhcpOptEnd then .absent
    else if t = dhcpOptPad then .again (pos + 1)
    else
      match rest with
      | [] => .absent
      | len :: rest =>
        if rest.length < len.toNat then .absent
        else if t = tag then .found (dhcpBaseSize + (pos + 2))
        else .again (pos + 2 + len.toNat)

theorem walkStep_eq : walkStep msg tag pos = passOf tag pos (msg.drop (dhcpBaseSize + pos)) := by
  generalize hopts : msg.drop (dhcpBaseSize + pos) = opts
  have hlength : msg.length - (dhcpBaseSize + pos) = opts.length := by
    rw [← hopts, length_drop]
  have hget (i : Nat) : msg[dhcpBaseSize + (pos + i)]? = opts[i]? := by
    rw [← hopts, getElem?_drop, Nat.add_assoc]
  unfold walkStep
  cases opts with
  | nil =>
    rw [length_nil] at hlength
    rw [if_neg (by omega), passOf]
  | cons t rest =>
    rw [length_cons] at hlength
    have hhead : msg[dhcpBaseSize + pos]? = some t := hget 0
    rw [if_pos (by omega), hhead]
    refine if_congr Iff.rfl rfl (if_congr Iff.rfl rfl ?_)
    rw [hget 1]
    cases rest with
    | nil =>
      rw [length_nil] at hlength
      rw [if_pos (by omega)]
    | cons len rest =>
      rw [length_cons] at hlength
      rw [if_neg (by omega)]
      exact if_congr (by omega) rfl rfl

theorem passOf_spec (tag : UInt8) (pos : Nat) (opts : List UInt8) :
    (passOf tag pos opts = .absent ∧ ∀ n, ¬ Finds tag opts n) ∨
    (passOf tag pos opts = .found (dhcpBaseSize + (pos + 2)) ∧ ∀ n, Finds tag opts n ↔ n = 2) ∨
    ∃ i, passOf tag pos opts = .again (pos + i) ∧ 0 < i ∧ i ≤ opts.length ∧
      ∀ k, Finds tag opts k ↔ ∃ n, k = i + n ∧ Finds tag (opts.drop i) n := by
  cases opts with
  | nil => exact .inl ⟨rfl, fun n => not_finds_nil⟩
  | cons t rest =>
    unfold passOf
    dsimp only
    by_cases hend : t = dhcpOptEnd
    · rw [if_pos hend, hend]
      exact .inl ⟨rfl, fun n => not_finds_end⟩
    rw [if_neg hend]
    by_cases hpad : t = dhcpOptPad
    · rw [if_pos hpad, hpad]
      exact .inr (.inr ⟨1, rfl, Nat.one_pos, Nat.succ_pos _, fun k => finds_pad⟩)
    rw [if_neg hpad]
    cases rest with
    | nil => exact .inl ⟨rfl, fun n => not_finds_single hpad⟩
    | cons len rest =>
      dsimp only
      by_cases hshort : rest.length < len.toNat
      · rw [if_pos hshort]
        refine .inl ⟨rfl, fun n h => ?_⟩
        exact absurd ((finds_option hpad hend).mp h).1 (Nat.not_le_of_lt hshort)
      rw [if_neg hshort]
      have hlen := Nat.le_of_not_lt hshort
      by_cases htag : t = tag
      · rw [if_pos htag]
        refine .inr (.inl ⟨rfl, fun n => ?_⟩)
        rw [finds_option hpad hend, if_pos htag, and_iff_right hlen]
      · rw [if_neg htag]
        have hdrop : (t :: len :: rest).drop (2 + len.toNat) = rest.drop len.toNat := by
          rw [Nat.add_comm]
          rfl
        refine .inr (.inr ⟨2 + len.toNat, by rw [Nat.add_assoc], by omega, ?_, fun k => ?_⟩)
        · rw [length_cons, length_cons]
          omega
        · rw [finds_option hpad hend, if_neg htag, and_iff_right hlen, hdrop]

theorem walk_spec {fuel : Nat} (hfuel : msg.length - (dhcpBaseSize + pos) < fuel) :
    ∃ r, walk msg tag fuel pos = some r ∧ ∀ k, r = some k ↔
      ∃ n, k = dhcpBaseSize + pos + n ∧ Finds tag (msg.drop (dhcpBaseSize + pos)) n := by
  induction fuel generalizing pos with
  | zero => exact absurd hfuel (Nat.not_lt_zero _)
  | succ fuel ih =>
    rw [walk, walkStep_eq]
    rcases passOf_spec tag pos (msg.drop (dhcpBaseSize + pos)) with
      ⟨hpass, hnone⟩ | ⟨hpass, hfound⟩ | ⟨i, hpass, hpos, hle, hskip⟩
    · rw [hpass]
      refine ⟨none, rfl, fun k => ⟨fun h => ?_, fun ⟨n, _, h⟩ => absurd h (hnone n)⟩⟩
      cases h
    · rw [hpass]
      refine ⟨_, rfl, fun k => ?_⟩
      rw [some_inj]
      refine ⟨?_, ?_⟩
      · rintro rfl
        exact ⟨2, rfl, (hfound 2).mpr rfl⟩
      · rintro ⟨n, rfl, h⟩
        rw [(hfound n).mp h, Nat.add_assoc]
    · rw [hpass]
      rw [length_drop] at hle
      obtain ⟨r, hr, hspec⟩ := @ih (pos + i) (by omega)
      refine ⟨r, hr, fun k => (hspec k).trans ?_⟩
      rw [← Nat.add_assoc, ← drop_drop]
      refine ⟨?_, ?_⟩
      · rintro ⟨n, rfl, h⟩
        exact ⟨i + n, Nat.add_assoc _ _ _, (hskip _).mpr ⟨n, rfl, h⟩⟩
      · rintro ⟨m, rfl, hm⟩
        obtain ⟨n, rfl, h⟩ := (hskip m).mp hm
        exact ⟨n, (Nat.add_assoc _ _ _).symm, h⟩

theorem dhcpFindOption_spec (hlen : dhcpBaseSize ≤ msg.length) :
    ∃ r, dhcpFindOption msg tag = some r ∧ ∀ k, r = some k ↔
      ∃ n, k = dhcpBaseSize + n ∧ Finds tag (msg.drop dhcpBaseSize) n := by
  rw [dhcpFindOption, if_neg (Nat.not_lt_of_le hlen)]
  exact @walk_spec msg tag 0 _ (by omega)

end Walk

def optionsOffset : Nat := 240

structure Message (msg : List UInt8) : Prop where
  length_le : optionsOffset ≤ msg.length
  cookie : (msg.drop magicOffset).take 4 = [0x63, 0x82, 0x53, 0x63]

/-- Looking up a tag reads only the message and gives the value of the first option with the tag. -/
def LooksUp (msg : List UInt8) (tag : UInt8) : Prop :=
  ∃ r, dhcpFindOption msg tag = some r ∧
    ∀ k, r = some k ↔ ∃ n, k = optionsOffset + n ∧ Finds tag (msg.drop optionsOffset) n

/-- What the first two bytes of the cookie, read as a tag and a length, lead to: options are looked for
128 bytes behind their beginning. -/
structure Aligned (msg : List UInt8) (tag : UInt8) : Prop where
  short : msg.length < optionsOffset + 128 → ∀ n, ¬ Finds tag (msg.drop optionsOffset) n
  tag_ne : optionsOffset + 128 ≤ msg.length → tag ≠ 99
  first : optionsOffset + 128 ≤ msg.length → ∀ n, Finds tag (msg.drop optionsOffset) n ↔
    ∃ n', n = 128 + n' ∧ Finds tag (msg.drop (optionsOffset + 128)) n'

section Lookup

variable {msg : List UInt8} {tag : UInt8}

theorem Message.options (h : Message msg) :
    msg.drop dhcpBaseSize = 99 :: 130 :: ([0x53, 0x63] ++ msg.drop optionsOffset) := by
  rw [dhcpBaseSize_eq, ← take_append_drop 4 (msg.drop 236), drop_drop]
  have hcookie : (msg.drop 236).take 4 = [0x63, 0x82, 0x53, 0x63] := h.cookie
  rw [hcookie]
  rfl

theorem Message.finds_iff (h : Message msg) (k : Nat) : Finds tag (msg.drop dhcpBaseSize) k ↔
    optionsOffset + 128 ≤ msg.length ∧ if tag = 99 then k = 2
      else ∃ n, k = 132 + n ∧ Finds tag (msg.drop (optionsOffset + 128)) n := by
  rw [h.options, finds_option (by decide) (by decide)]
  have hdrop : ([0x53, 0x63] ++ msg.drop optionsOffset).drop (130 : UInt8).toNat =
      msg.drop (optionsOffset + 128) := by
    rw [← drop_drop]
    rfl
  rw [hdrop, length_append, length_drop]
  refine and_congr ?_ (Iff.of_eq (if_congr eq_comm rfl rfl))
  have h130 : (130 : UInt8).toNat = 130 := rfl
  rw [h130, length_cons, length_singleton]
  omega

/-- An option is found if and only if looking 128 bytes behind the beginning makes no difference. -/
theorem looksUp_iff (h : Message msg) : LooksUp msg tag ↔ Aligned msg tag := by
  have hlength := h.length_le
  obtain ⟨r, hr, hspec⟩ := @dhcpFindOption_spec msg tag (by
    rw [dhcpBaseSize_eq]
    exact Nat.le_trans (by decide) hlength)
  have hsome : LooksUp msg tag ↔ ∀ k, (∃ n, k = 236 + n ∧ Finds tag (msg.drop dhcpBaseSize) n) ↔
      ∃ n, k = optionsOffset + n ∧ Finds tag (msg.drop optionsOffset) n := by
    rw [dhcpBaseSize_eq] at hspec ⊢
    refine ⟨?_, fun hiff => ⟨r, hr, fun k => (hspec k).trans (hiff k)⟩⟩
    rintro ⟨r', hr', hspec'⟩ k
    cases hr.symm.trans hr'
    exact (hspec k).symm.trans (hspec' k)
  have hcode : ∀ k, (∃ n, k = 236 + n ∧ Finds tag (msg.drop dhcpBaseSize) n) ↔
      optionsOffset + 128 ≤ msg.length ∧ if tag = 99 then k = 238
        else ∃ n, k = optionsOffset + 128 + n ∧ Finds tag (msg.drop (optionsOffset + 128)) n := by
    intro k
    by_cases htag : tag = 99
    · simp only [h.finds_iff, if_pos htag, optionsOffset]
      refine ⟨fun ⟨n, hk, hlong, hn⟩ => ⟨hlong, by omega⟩, fun ⟨hlong, hk⟩ => ⟨2, hk, hlong, rfl⟩⟩
    · simp only [h.finds_iff, if_neg htag, optionsOffset]
      refine ⟨?_, ?_⟩
      · rintro ⟨_, rfl, hlong, n, rfl, hn⟩
        exact ⟨hlong, n, by omega, hn⟩
      · rintro ⟨hlong, n, rfl, hn⟩
        exact ⟨132 + n, by omega, hlong, n, rfl, hn⟩
  simp only [hsome, hcode]
  refine ⟨fun hall => ?_, fun haligned k => ?_⟩
  · refine
      { short := fun hshort n hn => ?_
        tag_ne := fun hlong htag => ?_
        first := fun hlong n => ?_ }
    · exact absurd ((hall _).mpr ⟨n, rfl, hn⟩).1 (Nat.not_le_of_lt hshort)
    · obtain ⟨n, hk, -⟩ := (hall 238).mp ⟨hlong, by rw [if_pos htag]⟩
      unfold optionsOffset at hk
      omega
    · have htag : tag ≠ 99 := by
        intro htag
        obtain ⟨n, hk, -⟩ := (hall 238).mp ⟨hlong, by rw [if_pos htag]⟩
        unfold optionsOffset at hk
        omega
      refine ⟨fun hn => ?_, ?_⟩
      · have hk := ((hall _).mpr ⟨n, rfl, hn⟩).2
        rw [if_neg htag] at hk
        obtain ⟨n', heq, hn'⟩ := hk
        exact ⟨n', by omega, hn'⟩
      · rintro ⟨n', rfl, hn'⟩
        obtain ⟨m, heq, hm⟩ := (hall _).mp ⟨hlong, by rw [if_neg htag]; exact ⟨n', rfl, hn'⟩⟩
        obtain rfl : m = 128 + n' := by omega
        exact hm
  · refine ⟨?_, ?_⟩
    · rintro ⟨hlong, hk⟩
      rw [if_neg (haligned.tag_ne hlong)] at hk
      obtain ⟨n', rfl, hn'⟩ := hk
      exact ⟨128 + n', Nat.add_assoc _ _ _, (haligned.first hlong _).mpr ⟨n', rfl, hn'⟩⟩
    · rintro ⟨n, rfl, hn⟩
      have hlong : optionsOffset + 128 ≤ msg.length := by
        by_contra hshort
        exact haligned.short (Nat.lt_of_not_le hshort) n hn
      obtain ⟨n', rfl, hn'⟩ := (haligned.first hlong n).mp hn
      rw [if_neg (haligned.tag_ne hlong)]
      exact ⟨hlong, n', (Nat.add_assoc _ _ _).symm, hn'⟩

def typeOnly : List UInt8 := List.replicate 236 0 ++ [0x63, 0x82, 0x53, 0x63, 53, 1, 5, 255]

theorem typeOnly_message : Message typeOnly :=
  { length_le := by decide +kernel
    cookie := by decide }

theorem finds_typeOnly : Finds dhcpOptMsgType (typeOnly.drop optionsOffset) 2 := by
  rw [show typeOnly.drop optionsOffset = [53, 1, 5, 255] by decide]
  exact .here 1 [5, 255] (by decide) (by decide) (by decide)

/-- The type of the message is there, and the walk does not come to it. -/
theorem looksUp_iff_typeOnly : ¬ LooksUp typeOnly dhcpOptMsgType := fun h =>
  ((looksUp_iff typeOnly_message).mp h).short (by decide +kernel) 2 finds_typeOnly

theorem looksUp_fails : ¬ ∀ msg tag, Message msg → LooksUp msg tag := by
  intro h
  obtain ⟨r, hr, hspec⟩ := h typeOnly dhcpOptMsgType typeOnly_message
  have hnone : dhcpFindOption typeOnly dhcpOptMsgType = some none := by decide +kernel
  obtain rfl : r = none := some.inj (hr.symm.trans hnone)
  cases (hspec _).mpr ⟨2, rfl, finds_typeOnly⟩

end Lookup

end JexOs.Dhcp
