import JexOs.Proof.DnsName

/-!
# Parsing an answer

`dns_parse_response` reads nothing behind the message, comes to an end, and finds the first address of a
well-formed message.
-/

namespace JexOs.Net

open ByteMem Tcp List Option

section Any

variable {msg : List UInt8} {fuel offset : Nat}

theorem cInt_of_lt {n : Nat} (h : n < 2 ^ 31) : cInt n = n := by
  unfold cInt
  rw [Int.bmod_def]
  omega

theorem cInt_le (n : Nat) : cInt n ≤ n := by
  unfold cInt
  rw [Int.bmod_def]
  omega

theorem dnsSkipName_total (hlength : msg.length < 2 ^ 31) (hpos : 0 < fuel)
    (hfuel : msg.length < offset + fuel) :
    ∃ ret : Int, dnsSkipName msg fuel offset = some ret ∧ ret ≤ msg.length + 1 := by
  induction fuel generalizing offset with
  | zero => exact absurd hpos (lt_irrefl 0)
  | succ fuel ih =>
    by_cases hin : offset < msg.length
    · have hread : msg[offset]? = some msg[offset] := getElem?_eq_getElem hin
      by_cases hzero : msg[offset] = 0
      · rw [hzero] at hread
        have hle := cInt_le (offset + 1)
        exact ⟨_, dnsSkipName_root hread, by omega⟩
      by_cases hpointer : msg[offset] &&& 0xC0 = 0xC0
      · have hle := cInt_le (offset + 2)
        exact ⟨_, dnsSkipName_pointer hread hpointer, by omega⟩
      · have hbyte := msg[offset].toNat_lt
        rw [dnsSkipName_label hread hzero hpointer, Nat.mod_eq_of_lt (by omega)]
        exact ih (by omega) (by omega)
    · refine ⟨-1, ?_, by omega⟩
      rw [dnsSkipName, if_neg hin]

theorem readBe16_total (h : offset + 1 < msg.length) : ∃ v, readBe16 msg offset = some v ∧ v < 2 ^ 16 := by
  have hhigh := msg[offset].toNat_lt
  have hlow := msg[offset + 1].toNat_lt
  refine ⟨256 * msg[offset].toNat + msg[offset + 1].toNat, ?_, by omega⟩
  unfold readBe16
  rw [getElem?_eq_getElem h, getElem?_eq_getElem (Nat.lt_of_succ_lt h)]
  rfl

theorem readIp_total (h : offset + 3 < msg.length) : ∃ ip, readIp msg offset = some ip := by
  unfold readIp
  rw [getElem?_eq_getElem h, getElem?_eq_getElem (show offset + 2 < msg.length by omega),
    getElem?_eq_getElem (show offset + 1 < msg.length by omega),
    getElem?_eq_getElem (show offset < msg.length by omega)]
  exact ⟨_, rfl⟩

theorem dnsSkipQuestions_total (hlength : msg.length < 2 ^ 31) (hfuel : msg.length < fuel) (count : Nat)
    (hoffset : offset ≤ msg.length) :
    ∃ next, dnsSkipQuestions msg fuel count offset = some next ∧ ∀ o ∈ next, o ≤ msg.length := by
  induction count generalizing offset with
  | zero => exact ⟨some offset, rfl, fun o ho => some.inj ho ▸ hoffset⟩
  | succ count ih =>
    obtain ⟨ret, hret, -⟩ := @dnsSkipName_total msg fuel offset hlength (by omega) (by omega)
    rw [dnsSkipQuestions, hret]
    change ∃ next, (if ret < 0 then some none else
      if (ret.toNat + 4) % 2 ^ 32 > msg.length then some none
      else dnsSkipQuestions msg fuel count ((ret.toNat + 4) % 2 ^ 32)) = some next ∧ _
    split
    · exact ⟨none, rfl, fun o ho => nomatch ho⟩
    · split
      · exact ⟨none, rfl, fun o ho => nomatch ho⟩
      · exact ih (Nat.le_of_not_lt ‹_›)

theorem dnsWalkAnswers_total (hlength : msg.length < 2 ^ 31) (hfuel : msg.length < fuel) (count : Nat)
    (hoffset : offset ≤ msg.length) : ∃ ip, dnsWalkAnswers msg fuel count offset = some ip := by
  induction count generalizing offset with
  | zero => exact ⟨0, rfl⟩
  | succ count ih =>
    obtain ⟨ret, hret, hle⟩ := @dnsSkipName_total msg fuel offset hlength (by omega) (by omega)
    rw [dnsWalkAnswers, hret]
    by_cases hneg : ret < 0
    · exact ⟨0, if_pos hneg⟩
    by_cases hfixed : (ret.toNat + 10) % 2 ^ 32 > msg.length
    · exact ⟨0, (if_neg hneg).trans (if_pos hfixed)⟩
    obtain ⟨type, htype, -⟩ := @readBe16_total msg ret.toNat (by omega)
    obtain ⟨cls, hcls, -⟩ := @readBe16_total msg (ret.toNat + 2) (by omega)
    obtain ⟨rdlength, hrd, hrdlt⟩ := @readBe16_total msg (ret.toNat + 8) (by omega)
    change ∃ ip, (if ret < 0 then some 0 else if (ret.toNat + 10) % 2 ^ 32 > msg.length then some 0 else
      (readBe16 msg ret.toNat).bind fun type => (readBe16 msg (ret.toNat + 2)).bind fun cls =>
        (readBe16 msg (ret.toNat + 8)).bind fun rdlength => _) = some ip
    rw [if_neg hneg, if_neg hfixed, htype, hcls, hrd]
    simp only [bind_some]
    by_cases hend : ((ret.toNat + 10) % 2 ^ 32 + rdlength) % 2 ^ 32 > msg.length
    · exact ⟨0, if_pos hend⟩
    rw [if_neg hend]
    by_cases haddress : type = 1 ∧ cls = 1 ∧ rdlength = 4
    · rw [if_pos haddress]
      exact readIp_total (by omega)
    · rw [if_neg haddress]
      exact ih (Nat.le_of_not_lt hend)

theorem dnsParseResponse_total (hlength : msg.length < 2 ^ 31) (hfuel : msg.length < fuel) :
    ∃ ip, dnsParseResponse fuel msg = some ip := by
  unfold dnsParseResponse
  by_cases hshort : msg.length < 12
  · exact ⟨0, if_pos hshort⟩
  rw [if_neg hshort]
  obtain ⟨flags, hflags, -⟩ := @readBe16_total msg 2 (by omega)
  obtain ⟨qdcount, hqd, -⟩ := @readBe16_total msg 4 (by omega)
  obtain ⟨ancount, han, -⟩ := @readBe16_total msg 6 (by omega)
  rw [hflags, hqd, han]
  simp only [bind_eq_bind, bind_some]
  by_cases herror : flags % 16 ≠ 0
  · exact ⟨0, if_pos herror⟩
  rw [if_neg herror]
  obtain ⟨next, hnext, hle⟩ := dnsSkipQuestions_total hlength hfuel qdcount (show 12 ≤ msg.length by omega)
  rw [hnext]
  cases next with
  | none => exact ⟨0, rfl⟩
  | some o => exact dnsWalkAnswers_total hlength hfuel ancount (hle o rfl)

end Any

structure DnsName where
  labels : List (List UInt8)
  pointer : Option (UInt8 × UInt8)
  valid : ∀ l ∈ labels, ValidLabel l
  isPointer : ∀ p ∈ pointer, p.1 &&& 0xC0 = 0xC0

def DnsName.ending (name : DnsName) : List UInt8 :=
  match name.pointer with
  | none => [0]
  | some (high, low) => [high, low]

def DnsName.bytes (name : DnsName) : List UInt8 := wireLabels name.labels ++ name.ending

structure Question where
  name : DnsName
  type : UInt16
  cls : UInt16

def Question.bytes (q : Question) : List UInt8 := q.name.bytes ++ be16Bytes q.type ++ be16Bytes q.cls

structure Record where
  name : DnsName
  type : UInt16
  cls : UInt16
  ttl : UInt32
  rdata : List UInt8
  rdata_lt : rdata.length < 2 ^ 16

def be32Bytes (v : UInt32) : List UInt8 :=
  [byteOf v.toNat 3, byteOf v.toNat 2, byteOf v.toNat 1, byteOf v.toNat 0]

def Record.bytes (r : Record) : List UInt8 :=
  r.name.bytes ++ be16Bytes r.type ++ be16Bytes r.cls ++ be32Bytes r.ttl ++
    be16Bytes (UInt16.ofNat r.rdata.length) ++ r.rdata

/-- The records with an address: TYPE A, CLASS IN and four bytes. -/
def Record.isAddress (r : Record) : Bool := r.type == 1 && r.cls == 1 && r.rdata.length == 4

def addressOf : List UInt8 → UInt32
  | [b0, b1, b2, b3] =>
    UInt32.ofNat (b0.toNat + 2 ^ 8 * b1.toNat + 2 ^ 16 * b2.toNat + 2 ^ 24 * b3.toNat)
  | _ => 0

def firstAddress (answers : List Record) : UInt32 :=
  match answers.find? Record.isAddress with
  | none => 0
  | some r => addressOf r.rdata

/-- A response without an error. `rest` are the sections behind the answers. -/
structure DnsResponse where
  id : UInt16
  flags : UInt16
  questions : List Question
  answers : List Record
  nscount : UInt16
  arcount : UInt16
  rest : List UInt8
  noError : flags.toNat % 16 = 0
  questions_lt : questions.length < 2 ^ 16
  answers_lt : answers.length < 2 ^ 16

def DnsResponse.header (r : DnsResponse) : List UInt8 :=
  be16Bytes r.id ++ be16Bytes r.flags ++ be16Bytes (UInt16.ofNat r.questions.length) ++
    be16Bytes (UInt16.ofNat r.answers.length) ++ be16Bytes r.nscount ++ be16Bytes r.arcount

def DnsResponse.bytes (r : DnsResponse) : List UInt8 :=
  r.header ++ (r.questions.flatMap Question.bytes ++ (r.answers.flatMap Record.bytes ++ r.rest))

section Grammar

variable {msg before after : List UInt8} {fuel : Nat}

@[simp]
theorem length_be16Bytes (v : UInt16) : (be16Bytes v).length = 2 := rfl

@[simp]
theorem length_be32Bytes (v : UInt32) : (be32Bytes v).length = 4 := rfl

theorem readBe16_bytes (v : UInt16) (hmsg : msg = before ++ (be16Bytes v ++ after)) :
    readBe16 msg before.length = some v.toNat := by
  have hv := v.toNat_lt
  have hhigh : msg[before.length]? = some (byteOf v.toNat 1) := by
    rw [hmsg, getElem?_append_right le_rfl, Nat.sub_self]
    rfl
  have hlow : msg[before.length + 1]? = some (byteOf v.toNat 0) := by
    rw [hmsg, getElem?_append_right (Nat.le_add_right _ 1), Nat.add_sub_cancel_left]
    rfl
  unfold readBe16
  rw [hhigh, hlow]
  change some (256 * (byteOf v.toNat 1).toNat + (byteOf v.toNat 0).toNat) = some v.toNat
  rw [toNat_byteOf, toNat_byteOf, Nat.pow_zero, Nat.pow_one, Nat.div_one]
  exact congrArg some (by omega)

theorem readIp_bytes {rdata : List UInt8} (hlength : rdata.length = 4)
    (hmsg : msg = before ++ (rdata ++ after)) : readIp msg before.length = some (addressOf rdata) := by
  obtain ⟨b0, b1, b2, b3, rfl⟩ : ∃ b0 b1 b2 b3, rdata = [b0, b1, b2, b3] := by
    match rdata, hlength with
    | [b0, b1, b2, b3], _ => exact ⟨b0, b1, b2, b3, rfl⟩
  have hread (k : Nat) : msg[before.length + k]? = ([b0, b1, b2, b3] ++ after)[k]? := by
    rw [hmsg, getElem?_append_right (Nat.le_add_right _ _), Nat.add_sub_cancel_left]
  unfold readIp
  rw [← Nat.add_zero before.length, hread 0, hread 1, hread 2, hread 3]
  rfl

theorem dnsSkipName_name (name : DnsName) (hmsg : msg = before ++ (name.bytes ++ after))
    (hlength : msg.length < 2 ^ 31) (hfuel : msg.length < fuel) :
    dnsSkipName msg fuel before.length = some ((before ++ name.bytes).length : Int) := by
  have hparts : msg = before ++ (wireLabels name.labels ++ (name.ending ++ after)) := by
    rw [hmsg, DnsName.bytes, append_assoc]
  have hend : msg = (before ++ wireLabels name.labels) ++ (name.ending ++ after) := by
    rw [hparts, append_assoc]
  have hmany := length_le_wireLabels name.labels
  have htotal := congrArg List.length hend
  rw [length_append, length_append, length_append] at htotal
  obtain ⟨more, rfl⟩ : ∃ more, fuel = more + 1 + name.labels.length :=
    ⟨fuel - 1 - name.labels.length, by omega⟩
  rw [dnsSkipName_labels name.valid hparts (by omega)]
  have hread (k : Nat) : msg[(before ++ wireLabels name.labels).length + k]? = (name.ending ++ after)[k]? := by
    conv_lhs => rw [hend]
    rw [getElem?_append_right (Nat.le_add_right _ _), Nat.add_sub_cancel_left]
  have hbytes : (before ++ name.bytes).length =
      (before ++ wireLabels name.labels).length + name.ending.length := by
    rw [DnsName.bytes, ← append_assoc, length_append]
  rw [hbytes]
  have hfits : (before ++ wireLabels name.labels).length + name.ending.length < 2 ^ 31 := by
    rw [length_append]
    omega
  have hfirst := hread 0
  rw [Nat.add_zero] at hfirst
  unfold DnsName.ending at *
  cases hpointer : name.pointer with
  | none =>
    rw [hpointer] at hfirst hfits
    rw [dnsSkipName_root hfirst]
    exact congrArg some (cInt_of_lt hfits)
  | some p =>
    rw [hpointer] at hfirst hfits
    rw [dnsSkipName_pointer hfirst (name.isPointer _ hpointer)]
    exact congrArg some (cInt_of_lt hfits)

theorem dnsSkipQuestions_step {count offset n : Nat}
    (hname : dnsSkipName msg fuel offset = some (n : Int)) (hlength : msg.length < 2 ^ 31)
    (hfits : n + 4 ≤ msg.length) :
    dnsSkipQuestions msg fuel (count + 1) offset = dnsSkipQuestions msg fuel count (n + 4) := by
  have hoffset : ((n : Int).toNat + 4) % 2 ^ 32 = n + 4 := by
    rw [Int.toNat_natCast, Nat.mod_eq_of_lt (by omega)]
  rw [dnsSkipQuestions, hname]
  simp only [bind_eq_bind, bind_some, hoffset]
  rw [if_neg (by omega), if_neg (by omega)]

theorem dnsWalkAnswers_step {count offset n type cls rdlength : Nat}
    (hname : dnsSkipName msg fuel offset = some (n : Int)) (htype : readBe16 msg n = some type)
    (hcls : readBe16 msg (n + 2) = some cls) (hrd : readBe16 msg (n + 8) = some rdlength)
    (hlength : msg.length < 2 ^ 31) (hfits : n + 10 + rdlength ≤ msg.length) :
    dnsWalkAnswers msg fuel (count + 1) offset = if type = 1 ∧ cls = 1 ∧ rdlength = 4 then readIp msg (n + 10)
      else dnsWalkAnswers msg fuel count (n + 10 + rdlength) := by
  have hfixed : (n + 10) % 2 ^ 32 = n + 10 := Nat.mod_eq_of_lt (by omega)
  have hend : (n + 10 + rdlength) % 2 ^ 32 = n + 10 + rdlength := Nat.mod_eq_of_lt (by omega)
  rw [dnsWalkAnswers, hname]
  simp only [bind_eq_bind, bind_some, Int.toNat_natCast, htype, hcls, hrd, hfixed, hend]
  rw [if_neg (by omega), if_neg (by omega), if_neg (by omega)]

theorem dnsSkipQuestions_bytes (questions : List Question)
    (hmsg : msg = before ++ (questions.flatMap Question.bytes ++ after)) (hlength : msg.length < 2 ^ 31)
    (hfuel : msg.length < fuel) : dnsSkipQuestions msg fuel questions.length before.length =
      some (some (before ++ questions.flatMap Question.bytes).length) := by
  induction questions generalizing before with
  | nil => rw [flatMap_nil, append_nil, length_nil, dnsSkipQuestions]
  | cons q questions ih =>
    have hname : msg = before ++ (q.name.bytes ++ (be16Bytes q.type ++ be16Bytes q.cls ++
        (questions.flatMap Question.bytes ++ after))) := by
      rw [hmsg, flatMap_cons, Question.bytes]
      simp only [append_assoc]
    have hnext : msg = (before ++ q.bytes) ++ (questions.flatMap Question.bytes ++ after) := by
      rw [hmsg, flatMap_cons]
      simp only [append_assoc]
    have hoffset : (before ++ q.bytes).length = (before ++ q.name.bytes).length + 4 := by
      rw [Question.bytes]
      simp only [length_append, length_be16Bytes]
      omega
    have htotal := congrArg List.length hnext
    rw [length_append] at htotal
    rw [length_cons, dnsSkipQuestions_step (dnsSkipName_name q.name hname hlength hfuel) hlength
      (by omega), ← hoffset, ih hnext, flatMap_cons, append_assoc]

theorem dnsWalkAnswers_bytes (answers : List Record)
    (hmsg : msg = before ++ (answers.flatMap Record.bytes ++ after)) (hlength : msg.length < 2 ^ 31)
    (hfuel : msg.length < fuel) :
    dnsWalkAnswers msg fuel answers.length before.length = some (firstAddress answers) := by
  induction answers generalizing before with
  | nil => rfl
  | cons r answers ih =>
    have hrdata := r.rdata_lt
    have hname : msg = before ++ (r.name.bytes ++ (be16Bytes r.type ++ (be16Bytes r.cls ++ (be32Bytes r.ttl ++
        (be16Bytes (UInt16.ofNat r.rdata.length) ++ (r.rdata ++
          (answers.flatMap Record.bytes ++ after))))))) := by
      rw [hmsg, flatMap_cons, Record.bytes]
      simp only [append_assoc]
    have hnext : msg = (before ++ r.bytes) ++ (answers.flatMap Record.bytes ++ after) := by
      rw [hmsg, flatMap_cons]
      simp only [append_assoc]
    have hoffset : (before ++ r.bytes).length = (before ++ r.name.bytes).length + 10 + r.rdata.length := by
      rw [Record.bytes]
      simp only [length_append, length_be16Bytes, length_be32Bytes]
      omega
    -- the fields behind the name, each behind what is in front of it
    have htype : readBe16 msg (before ++ r.name.bytes).length = some r.type.toNat :=
      readBe16_bytes r.type (by rw [hname, append_assoc])
    have hcls := @readBe16_bytes msg (before ++ r.name.bytes ++ be16Bytes r.type) _ r.cls
      (by rw [hname, append_assoc, append_assoc])
    have hrd := @readBe16_bytes msg
      (before ++ r.name.bytes ++ be16Bytes r.type ++ be16Bytes r.cls ++ be32Bytes r.ttl)
      (r.rdata ++ (answers.flatMap Record.bytes ++ after)) (UInt16.ofNat r.rdata.length)
        (by rw [hname]; simp only [append_assoc])
    rw [length_append, length_be16Bytes] at hcls
    have hplace : (before ++ r.name.bytes ++ be16Bytes r.type ++ be16Bytes r.cls ++ be32Bytes r.ttl).length =
        (before ++ r.name.bytes).length + 8 := by
      simp only [length_append, length_be16Bytes, length_be32Bytes]
    rw [hplace, UInt16.toNat_ofNat_of_lt' hrdata] at hrd
    have htotal := congrArg List.length hnext
    rw [length_append] at htotal
    rw [length_cons, dnsWalkAnswers_step (dnsSkipName_name r.name hname hlength hfuel) htype hcls hrd
      hlength (by omega)]
    have hiff : r.isAddress = true ↔ r.type.toNat = 1 ∧ r.cls.toNat = 1 ∧ r.rdata.length = 4 := by
      unfold Record.isAddress
      rw [Bool.and_eq_true, Bool.and_eq_true, beq_iff_eq, beq_iff_eq, beq_iff_eq, ← UInt16.toNat_inj,
        ← UInt16.toNat_inj, and_assoc]
      rfl
    unfold firstAddress
    by_cases haddress : r.isAddress = true
    · rw [if_pos (hiff.mp haddress), find?_cons_of_pos haddress]
      have hread := @readIp_bytes msg (before ++ r.name.bytes ++ be16Bytes r.type ++ be16Bytes r.cls ++
        be32Bytes r.ttl ++ be16Bytes (UInt16.ofNat r.rdata.length))
        (answers.flatMap Record.bytes ++ after) r.rdata (hiff.mp haddress).2.2
        (by rw [hname]; simp only [append_assoc])
      simp only [length_append, length_be16Bytes, length_be32Bytes] at hread ⊢
      exact hread
    · rw [if_neg (fun h => haddress (hiff.mpr h)), find?_cons_of_neg haddress, ← hoffset]
      exact ih hnext

theorem dnsParseResponse_bytes (r : DnsResponse) (hlength : r.bytes.length < 2 ^ 31)
    (hfuel : r.bytes.length < fuel) : dnsParseResponse fuel r.bytes = some (firstAddress r.answers) := by
  have hheader : r.header.length = 12 := rfl
  have hlong : ¬ r.bytes.length < 12 := by
    rw [DnsResponse.bytes, length_append, hheader]
    omega
  have hflags : readBe16 r.bytes 2 = some r.flags.toNat :=
    @readBe16_bytes r.bytes (be16Bytes r.id) _ r.flags (by
      rw [DnsResponse.bytes, DnsResponse.header]
      rfl)
  have hqd := @readBe16_bytes r.bytes (be16Bytes r.id ++ be16Bytes r.flags) _
    (UInt16.ofNat r.questions.length) (by
      rfl)
  have han := @readBe16_bytes r.bytes
    (be16Bytes r.id ++ be16Bytes r.flags ++ be16Bytes (UInt16.ofNat r.questions.length)) _
    (UInt16.ofNat r.answers.length) (by
      rfl)
  rw [UInt16.toNat_ofNat_of_lt' r.questions_lt] at hqd
  rw [UInt16.toNat_ofNat_of_lt' r.answers_lt] at han
  have hskip := @dnsSkipQuestions_bytes r.bytes r.header _ fuel r.questions rfl hlength hfuel
  rw [hheader] at hskip
  have hwalk := @dnsWalkAnswers_bytes r.bytes (r.header ++ r.questions.flatMap Question.bytes) r.rest fuel
    r.answers (by rw [DnsResponse.bytes, append_assoc]) hlength hfuel
  change readBe16 r.bytes 4 = _ at hqd
  change readBe16 r.bytes 6 = _ at han
  unfold dnsParseResponse
  rw [if_neg hlong, hflags, hqd, han]
  simp only [bind_eq_bind, bind_some, hskip]
  rw [if_neg (not_not.mpr r.noError), hwalk]

end Grammar

/-- No byte behind a message is read, every name ends, and the first address of a response is returned. -/
theorem dnsParseResponse_spec : (∀ msg : List UInt8, msg.length < 2 ^ 31 → ∀ fuel, msg.length < fuel →
      ∃ ip, dnsParseResponse fuel msg = some ip) ∧
    ∀ r : DnsResponse, r.bytes.length < 2 ^ 31 → ∀ fuel, r.bytes.length < fuel →
      dnsParseResponse fuel r.bytes = some (firstAddress r.answers) :=
  ⟨fun _ hlength _ hfuel => dnsParseResponse_total hlength hfuel,
    fun r hlength _ hfuel => dnsParseResponse_bytes r hlength hfuel⟩

section Trial

def trialName (pointer : Bool) : DnsName :=
  { labels := if pointer then [] else [[97]]
    pointer := if pointer then some (0xC0, 12) else none
    valid := by
      cases pointer <;> simp [ValidLabel]
    isPointer := by
      cases pointer <;> simp }

def trialResponse : DnsResponse :=
  { id := 7
    flags := 0x8180
    questions := [{ name := trialName false, type := 1, cls := 1 }]
    answers :=
      [{ name := trialName true, type := 5, cls := 1, ttl := 60, rdata := [1, 98, 0], rdata_lt := by decide },
        { name := trialName true, type := 1, cls := 1, ttl := 60, rdata := [10, 0, 2, 2],
          rdata_lt := by decide }]
    nscount := 0
    arcount := 0
    rest := []
    noError := by decide
    questions_lt := by decide
    answers_lt := by decide }

theorem dnsParseResponse_spec_trial : (∃ ip, dnsParseResponse 4 [7, 0, 1] = some ip) ∧
      dnsParseResponse 51 trialResponse.bytes = some 0x0202000A := by
  have hlength : trialResponse.bytes.length = 50 := by decide
  exact ⟨dnsParseResponse_spec.1 _ (by decide) 4 (by decide),
    dnsParseResponse_spec.2 trialResponse (by rw [hlength]; decide) 51 (by rw [hlength]; decide)⟩

end Trial

end JexOs.Net
