import JexOs.NetSend

/-!
# Answers to DNS queries

`dns_skip_name` and `dns_parse_response` of `src/drivers/net.c`. A message is the list of its bytes; a
read behind it has no result. Offsets are `uint32_t`, what `dns_skip_name` returns is an `int`.
-/

namespace JexOs.Net

open ByteMem Tcp

/-- `(int)v`. -/
def cInt (v : Nat) : Int := Int.bmod v (2 ^ 32)

/-- The loop of `dns_skip_name`, for as many labels as there is fuel. -/
def dnsSkipName (msg : List UInt8) : (fuel offset : Nat) → Option Int
  | 0, _ => none
  | fuel + 1, offset =>
    if offset < msg.length then
      match msg[offset]? with
      | none => none
      | some label =>
        if label = 0 then some (cInt (offset + 1))
        else if label &&& 0xC0 = 0xC0 then some (cInt (offset + 2))
        else dnsSkipName msg fuel ((offset + 1 + label.toNat) % 2 ^ 32)
    else some (-1)

/-- `read_be16(msg + a)`. -/
def readBe16 (msg : List UInt8) (a : Nat) : Option Nat := do
  let high ← msg[a]?
  let low ← msg[a + 1]?
  some (256 * high.toNat + low.toNat)

/-- `memcpy(&ip, msg + a, 4)`. -/
def readIp (msg : List UInt8) (a : Nat) : Option UInt32 := do
  let b0 ← msg[a]?
  let b1 ← msg[a + 1]?
  let b2 ← msg[a + 2]?
  let b3 ← msg[a + 3]?
  some (UInt32.ofNat (b0.toNat + 2 ^ 8 * b1.toNat + 2 ^ 16 * b2.toNat + 2 ^ 24 * b3.toNat))

/-- The offset behind the questions that are left, unless they are malformed. -/
def dnsSkipQuestions (msg : List UInt8) (fuel : Nat) : (count offset : Nat) → Option (Option Nat)
  | 0, offset => some (some offset)
  | count + 1, offset => do
      let ret ← dnsSkipName msg fuel offset
      if ret < 0 then some none
      else
        let offset := (ret.toNat + 4) % 2 ^ 32
        if offset > msg.length then some none else dnsSkipQuestions msg fuel count offset

/-- The records that are left, up to the first address. -/
def dnsWalkAnswers (msg : List UInt8) (fuel : Nat) : (count offset : Nat) → Option UInt32
  | 0, _ => some 0
  | count + 1, offset => do
      let ret ← dnsSkipName msg fuel offset
      if ret < 0 then some 0
      else
        let offset := ret.toNat
        if (offset + 10) % 2 ^ 32 > msg.length then some 0
        else
          let type ← readBe16 msg offset
          let cls ← readBe16 msg (offset + 2)
          let rdlength ← readBe16 msg (offset + 8)
          let offset := (offset + 10) % 2 ^ 32
          if (offset + rdlength) % 2 ^ 32 > msg.length then some 0
          else if type = 1 ∧ cls = 1 ∧ rdlength = 4 then readIp msg offset
          else dnsWalkAnswers msg fuel count ((offset + rdlength) % 2 ^ 32)

/-- `dns_parse_response`, with the fuel of each name. -/
def dnsParseResponse (fuel : Nat) (msg : List UInt8) : Option UInt32 :=
  if msg.length < 12 then some 0
  else do
    let flags ← readBe16 msg 2
    let qdcount ← readBe16 msg 4
    let ancount ← readBe16 msg 6
    if flags % 16 ≠ 0 then some 0
    else
      match ← dnsSkipQuestions msg fuel qdcount 12 with
      | none => some 0
      | some offset => dnsWalkAnswers msg fuel ancount offset

end JexOs.Net
