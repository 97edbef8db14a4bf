import JexOs.Proof.TccSpares
import JexOs.Proof.TccExec
import JexOs.Lib.X86Flow

/-!
# The addresses of strings

A literal is printed by `mov eax, 0; mov ebx, imm; int 0x80`, where `imm` gets the address at the end. There is
room for 64 such places.
-/

namespace JexOs.Tcc

open X86 (Byte Word wordBytes byteOf CodeAt Platform Block Decodes Cpu)
open List Option

/-- The code that prints a literal: where it starts, where the string table has the text, and the text. -/
structure Print where
  place : Nat
  offset : Nat
  text : CString
deriving DecidableEq, Repr

def printCode (imm : Word) : List Byte := emitMovEaxImm 0 ++ emitMovEbxImm imm ++ emitInt80

def textPrints (s : Parser) (text : CString) : List Print :=
  if s.stringTable.length + text.length + 1 ≤ 1024 then
    [{ place := s.gen.out.length
       offset := s.stringTable.length
       text := text }]
  else []

def literalPrints (s : Parser) (text : CString) : List Print :=
  if text = [] then [] else textPrints s text

def stringArgPrints (s : Parser) (tok : Token) : List Print :=
  match tok.type with
  | .tokString => textPrints s tok.str
  | _ => []

/-- The literals of a format, with the states that `formatLoop` has in front of them. -/
def formatPrints (tokens : List Token) (first : Nat) :
    (format : CString) → (argIdx : Nat) → (text : CString) → Parser → Option (List Print)
  | [], _, text, s => some (literalPrints s text)
  | [c], _, text, s => some (literalPrints s (text ++ [c]))
  | c :: spec :: rest, argIdx, text, s =>
    if c = ch '%' then
      let literal := literalPrints s text
      let s := emitLiteral s text
      if spec = ch '%' then do
        some (literal ++ (← formatPrints tokens first rest argIdx []
          (s.emit (emitMovEaxImm 12 ++ emitMovEbxImm ((ch '%').setWidth 32) ++ emitInt80))))
      else
        match specifierCall spec with
        | some number => do
            let tok ← tokens[← locateArg tokens argIdx first]?
            some (literal ++ (← formatPrints tokens first rest (argIdx + 1) []
              (s.emit (emitArg s.symtab tok ++ emitSyscall number))))
        | none =>
          if spec = ch 's' then do
            let tok ← tokens[← locateArg tokens argIdx first]?
            some (literal ++ (stringArgPrints s tok ++
              (← formatPrints tokens first rest (argIdx + 1) [] (emitStringArg s tok))))
          else do
            some (literal ++ (← formatPrints tokens first (spec :: rest) argIdx (text ++ [c]) s))
    else formatPrints tokens first (spec :: rest) argIdx (text ++ [c]) s

def turnPrints (tokens : List Token) (s : Parser) : Option (List Print) := do
  let i := s.gen.pos
  let tok ← tokens[i]?
  match ← functionHead tokens i with
  | some _ => some []
  | none =>
    let isName name := tok.type = .tokIdent ∧ tok.str = cstring name
    if ← (if isName "print" ∨ isName "printf" then matchTypes tokens (i + 1) [.tokLparen, .tokString]
        else some false) then
      formatPrints tokens (i + 4) (← tokens[i + 2]?).str 0 [] s
    else some []

def loopPrints (tokens : List Token) (size fuel : Nat) : (n : Nat) → Parser → Option (List Print)
  | 0, _ => none
  | n + 1, s => do
      if (← typeAt tokens s.gen.pos) ≠ .tokEof ∧ s.gen.out.length < guard size then
        some ((← turnPrints tokens s) ++
          (← loopPrints tokens size fuel n (← parseTurn tokens fuel s)))
      else some []

def programPrints (fuel : Nat) (tokens : List Token) (size : Nat) (g : Gen) : Option (List Print) :=
  loopPrints tokens size fuel fuel (initialParser g)

/-- The literals have their code in the output, and their text in the string table at the offset in the
code; the first 64 are on record. -/
structure Records (qs : List Print) (s : Parser) : Prop where
  code : ∀ q ∈ qs, BytesAt s.gen.out q.place (printCode (BitVec.ofNat 32 q.offset))
  text : ∀ q ∈ qs, BytesAt s.stringTable q.offset (q.text ++ [0])
  low : ∀ q ∈ qs, prologue.length ≤ q.place
  free : ∀ q ∈ qs, ∀ p, q.place ≤ p → p < q.place + 12 → ¬ Patching s p
  apart : qs.Pairwise fun q q' => q.place + 12 ≤ q'.place
  places : s.printPatches = (qs.take 64).map fun q => q.place + 5
  room : s.stringTable.length ≤ 1024
  patchable : Patchable s

section Records

variable {tokens : List Token} {fuel size : Nat} {s s' : Parser} {qs : List Print} {q : Print}

theorem length_printCode (imm : Word) : (printCode imm).length = 12 := rfl

theorem Records.bound (h : Records qs s) (hq : q ∈ qs) : q.place + 12 ≤ s.gen.out.length := by
  have hbound := (h.code q hq).bound (show 11 < 12 by decide)
  omega

theorem Records.spares (h : Records qs s) (hspares : Spares s s') (hpatchable : Patchable s') :
    Records qs s' := by
  refine
    { code := ?_
      text := by rw [hspares.strings]; exact h.text
      low := h.low
      free := ?_
      apart := h.apart
      places := by rw [hspares.prints]; exact h.places
      room := by rw [hspares.strings]; exact h.room
      patchable := hpatchable }
  · intro q hq
    refine (h.code q hq).congr fun k hk => ?_
    have hlow := h.low q hq
    have hbound := h.bound hq
    rw [length_printCode] at hk
    exact hspares.bytes _ (by omega) (by omega) (h.free q hq _ (Nat.le_add_right _ _) (by omega))
  · intro q hq p hle hlt hopen
    have hlow := h.low q hq
    have hbound := h.bound hq
    exact h.free q hq p hle hlt (hspares.places p (by omega) (by omega) hopen)

theorem Patchable.not_patching (h : Patchable s) {p : Nat} (hp : s.gen.out.length ≤ p) : ¬ Patching s p := by
  have hjz := h.jz
  have hjmp := h.jmp
  unfold Patching
  omega

theorem Records.emitPrint (h : Records qs s) (text : CString) :
    Records (qs ++ textPrints s text) (emitPrint s text) := by
  have hpatchable := (counts_emitPrint h.patchable text).1
  unfold textPrints Tcc.emitPrint at *
  split at hpatchable
  · next hroom =>
    rw [if_pos hroom, if_pos hroom]
    have hlow : prologue.length ≤ s.gen.out.length := h.patchable.frame
    have hone : ∀ {P : Print → Prop}, (∀ q ∈ qs, P q) →
        P { place := s.gen.out.length, offset := s.stringTable.length, text := text } →
        ∀ q ∈ qs ++ [{ place := s.gen.out.length, offset := s.stringTable.length, text := text }], P q := by
      intro P hold hnew q hq
      rcases mem_append.mp hq with hq | hq
      · exact hold q hq
      · rw [mem_singleton.mp hq]
        exact hnew
    refine
      { code := hone (fun q hq => (h.code q hq).append _) (bytesAt_end _ _)
        text := hone (fun q hq => ?_) ?_
        low := hone h.low hlow
        free := hone h.free fun p hp _ => h.patchable.not_patching hp
        apart := ?_
        places := ?_
        room := ?_
        patchable := hpatchable }
    · dsimp only
      rw [append_assoc]
      exact (h.text q hq).append _
    · dsimp only
      rw [append_assoc]
      exact bytesAt_end _ _
    · rw [pairwise_append]
      refine ⟨h.apart, pairwise_singleton _ _, ?_⟩
      intro q hq q' hq'
      rw [mem_singleton.mp hq']
      exact h.bound hq
    · dsimp only
      rw [h.places, length_map, length_take, take_append, map_append]
      by_cases hfull : qs.length < 64
      · obtain ⟨n, hn⟩ : ∃ n, 64 - qs.length = n + 1 := ⟨63 - qs.length, by omega⟩
        rw [if_pos ((Nat.min_le_right _ _).trans_lt hfull), hn, take_succ_cons, take_nil]
        rfl
      · rw [if_neg (by omega), Nat.sub_eq_zero_of_le (Nat.le_of_not_lt hfull), take_zero,
          map_nil, append_nil]
    · dsimp only
      rw [length_append, length_append, length_singleton]
      exact hroom
  · next hfull =>
    rw [if_neg hfull, if_neg hfull, append_nil]
    exact h

theorem Records.emitLiteral (h : Records qs s) (text : CString) :
    Records (qs ++ literalPrints s text) (emitLiteral s text) := by
  unfold literalPrints Tcc.emitLiteral
  split
  · rw [append_nil]
    exact h
  · exact h.emitPrint text

theorem Records.emit (h : Records qs s) (bytes : List Byte) : Records qs (s.emit bytes) :=
  h.spares (.emit s bytes) (h.patchable.emit bytes)

theorem Records.emitStringArg (h : Records qs s) (tok : Token) :
    Records (qs ++ stringArgPrints s tok) (emitStringArg s tok) := by
  unfold stringArgPrints Tcc.emitStringArg
  cases tok.type
  case tokString => exact h.emitPrint tok.str
  case tokIdent =>
    dsimp only
    rw [append_nil]
    exact h.emit _
  all_goals
    dsimp only
    rw [append_nil]
    exact h

theorem Records.formatLoop (tokens : List Token) (first : Nat) :
    ∀ (format : CString) (argIdx : Nat) (text : CString) (qs : List Print) (s s' : Parser),
      Tcc.formatLoop tokens first format argIdx text s = some s' → Records qs s →
      ∃ rs, formatPrints tokens first format argIdx text s = some rs ∧ Records (qs ++ rs) s'
  | [], argIdx, text, qs, s, s', h, hrecords => by
    rw [Tcc.formatLoop] at h
    cases h
    exact ⟨_, rfl, hrecords.emitLiteral text⟩
  | [c], argIdx, text, qs, s, s', h, hrecords => by
    rw [Tcc.formatLoop] at h
    cases h
    exact ⟨_, rfl, hrecords.emitLiteral (text ++ [c])⟩
  | c :: spec :: rest, argIdx, text, qs, s, s', h, hrecords => by
    rw [Tcc.formatLoop] at h
    rw [formatPrints]
    by_cases hpercent : c = ch '%'
    · rw [if_pos hpercent] at h ⊢
      dsimp only at h ⊢
      have hliteral := hrecords.emitLiteral text
      by_cases hpct : spec = ch '%'
      · rw [if_pos hpct] at h ⊢
        obtain ⟨rs, hrs, hrest⟩ := Records.formatLoop tokens first rest argIdx [] _ _ s' h (hliteral.emit _)
        rw [hrs]
        exact ⟨_, rfl, by rw [← append_assoc]; exact hrest⟩
      · rw [if_neg hpct] at h ⊢
        cases hcall : specifierCall spec with
        | some number =>
          rw [hcall] at h
          obtain ⟨idx, hidx, h⟩ := bind_eq_some_iff.mp h
          obtain ⟨tok, htok, h⟩ := bind_eq_some_iff.mp h
          obtain ⟨rs, hrs, hrest⟩ :=
            Records.formatLoop tokens first rest (argIdx + 1) [] _ _ s' h (hliteral.emit _)
          dsimp only
          rw [hidx, some_bind, htok, some_bind, hrs]
          exact ⟨_, rfl, by rw [← append_assoc]; exact hrest⟩
        | none =>
          rw [hcall] at h
          dsimp only at h ⊢
          by_cases hs : spec = ch 's'
          · rw [if_pos hs] at h ⊢
            obtain ⟨idx, hidx, h⟩ := bind_eq_some_iff.mp h
            obtain ⟨tok, htok, h⟩ := bind_eq_some_iff.mp h
            obtain ⟨rs, hrs, hrest⟩ := Records.formatLoop tokens first rest (argIdx + 1) [] _ _ s' h
              (hliteral.emitStringArg tok)
            rw [hidx, some_bind, htok, some_bind, hrs]
            exact ⟨_, rfl, by rw [← append_assoc, ← append_assoc]; exact hrest⟩
          · rw [if_neg hs] at h ⊢
            obtain ⟨rs, hrs, hrest⟩ := Records.formatLoop tokens first (spec :: rest) argIdx
              (text ++ [c]) _ _ s' h hliteral
            rw [hrs]
            exact ⟨_, rfl, by rw [← append_assoc]; exact hrest⟩
    · rw [if_neg hpercent] at h ⊢
      exact Records.formatLoop tokens first (spec :: rest) argIdx (text ++ [c]) qs s s' h hrecords

theorem Records.turn (h : Records qs s) (hturn : parseTurn tokens fuel s = some s') :
    ∃ rs, turnPrints tokens s = some rs ∧ Records (qs ++ rs) s' := by
  have hpatchable := (counts_parseTurn h.patchable).2 _ hturn
  have hquiet : ∀ {result}, Leads Spares s result → result = some s' → Records (qs ++ []) s' := by
    intro result hsparing hresult
    rw [append_nil]
    exact h.spares (hsparing s' hresult) hpatchable
  unfold parseTurn at hturn
  unfold turnPrints
  dsimp only at hturn ⊢
  obtain ⟨tok, htok, hturn⟩ := bind_eq_some_iff.mp hturn
  rw [htok, some_bind]
  obtain ⟨head, hhead, hturn⟩ := bind_eq_some_iff.mp hturn
  rw [hhead, some_bind]
  cases head with
  | some k => exact ⟨[], rfl, hquiet (.result (spares_carried.plain.goto s k)) hturn⟩
  | none =>
    dsimp only at hturn ⊢
    obtain ⟨prints, hprints, hturn⟩ := bind_eq_some_iff.mp hturn
    rw [hprints, some_bind]
    cases prints with
    | true =>
      rw [if_pos rfl] at hturn ⊢
      obtain ⟨format, hformat, hturn⟩ := bind_eq_some_iff.mp hturn
      rw [hformat]
      obtain ⟨s₁, hloop, hturn⟩ := bind_eq_some_iff.mp hturn
      obtain ⟨i, -, hturn⟩ := bind_eq_some_iff.mp hturn
      cases hturn
      obtain ⟨rs, hrs, hrest⟩ := Records.formatLoop tokens _ format.str 0 [] qs s s₁ hloop h
      exact ⟨rs, hrs, hrest.spares (.of_out rfl rfl rfl rfl rfl) hpatchable⟩
    | false =>
      rw [if_neg Bool.false_ne_true] at hturn ⊢
      refine ⟨[], rfl, ?_⟩
      obtain ⟨allocates, hallocates, hturn⟩ := bind_eq_some_iff.mp hturn
      cases allocates with
      | true =>
        obtain ⟨amount, -, hturn⟩ := bind_eq_some_iff.mp hturn
        exact hquiet (.result (spares_carried.plain.emit_goto s _ _)) hturn
      | false =>
        rw [if_neg Bool.false_ne_true] at hturn
        revert hturn
        cases tok.type
        case tokReturn => exact hquiet (leads_parseReturn spares_carried)
        case tokIdent =>
          dsimp only
          split
          · exact hquiet (leads_parseAsm spares_carried.plain)
          · exact hquiet (leads_parseNamed spares_carried.plain)
        case tokInt | tokChar =>
          refine hquiet (.bind fun next _ => ?_)
          split
          · exact leads_parseDeclaration spares_carried.plain
          · exact .result (spares_carried.plain.goto s _)
        case tokRbrace => exact hquiet (leads_closeBrace spares_carried)
        case tokLbrace => exact hquiet (.result (.of_out rfl rfl rfl rfl rfl))
        case tokIf | tokWhile | tokFor => exact hquiet (leads_parseControl spares_carried)
        all_goals exact hquiet (.result (spares_carried.plain.goto s _))

theorem Records.loop {n : Nat} (h : Records qs s) (hloop : parseLoop tokens size fuel n s = some s') :
    ∃ rs, loopPrints tokens size fuel n s = some rs ∧ Records (qs ++ rs) s' := by
  induction n generalizing s qs with
  | zero => cases hloop
  | succ n ih =>
    unfold parseLoop at hloop
    unfold loopPrints
    obtain ⟨type, htype, hloop⟩ := bind_eq_some_iff.mp hloop
    rw [htype, some_bind]
    by_cases hgo : type ≠ .tokEof ∧ s.gen.out.length < guard size
    · rw [if_pos hgo] at hloop ⊢
      obtain ⟨s₁, hturn, hloop⟩ := bind_eq_some_iff.mp hloop
      obtain ⟨rs, hrs, hrecords⟩ := h.turn hturn
      obtain ⟨rs', hrs', hrecords'⟩ := ih hrecords hloop
      rw [hrs, some_bind, hturn, some_bind, hrs']
      exact ⟨rs ++ rs', rfl, by rw [← append_assoc]; exact hrecords'⟩
    · rw [if_neg hgo] at hloop ⊢
      cases hloop
      exact ⟨[], rfl, by rw [append_nil]; exact h⟩

theorem records_initial (g : Gen) : Records [] (initialParser g) :=
  { code := fun _ hq => absurd hq not_mem_nil
    text := fun _ hq => absurd hq not_mem_nil
    low := fun _ hq => absurd hq not_mem_nil
    free := fun _ hq => absurd hq not_mem_nil
    apart := List.Pairwise.nil
    places := rfl
    room := Nat.zero_le _
    patchable := @Reached.patchable [] 0 0 g _ Reached.start }

end Records

section Patches

variable {out : List Byte} {codeEnd stringPos p q : Nat} {ps : List Nat}

theorem le_length_patchString : out.length ≤ (patchString codeEnd stringPos out p).length := by
  unfold patchString
  dsimp only
  split
  · exact le_length_patch32
  · exact le_rfl

theorem patchString_outside (hq : q < out.length) (houtside : q < p + 1 ∨ p + 5 ≤ q) :
    (patchString codeEnd stringPos out p)[q]? = out[q]? := by
  unfold patchString
  dsimp only
  split
  · exact patch32_outside hq houtside
  · rfl

theorem patches_outside (hq : q < out.length) (houtside : ∀ p ∈ ps, q < p + 1 ∨ p + 5 ≤ q) :
    (ps.foldl (patchString codeEnd stringPos) out)[q]? = out[q]? := by
  induction ps generalizing out with
  | nil => rfl
  | cons p ps ih =>
    rw [foldl_cons, ih (hq.trans_le le_length_patchString)
      fun r hr => houtside r (mem_cons_of_mem p hr)]
    exact patchString_outside hq (houtside p mem_cons_self)

theorem BytesAt.patches {bytes : List Byte} (h : BytesAt out q bytes)
    (houtside : ∀ p ∈ ps, q + bytes.length ≤ p + 1 ∨ p + 5 ≤ q) :
    BytesAt (ps.foldl (patchString codeEnd stringPos) out) q bytes := by
  refine h.congr fun k hk => patches_outside (h.bound hk) fun p hp => ?_
  have hp := houtside p hp
  omega

theorem BytesAt.patchString {imm : Word} (h : BytesAt out q (printCode imm)) (hin : imm.toNat < stringPos) :
    BytesAt (Tcc.patchString codeEnd stringPos out (q + 5)) q
      (printCode (BitVec.ofNat 32 (baseAddr + codeEnd) + imm)) := by
  have hparts : BytesAt out q ((emitMovEaxImm 0 ++ [0xBB]) ++ (wordBytes imm ++ emitInt80)) := h
  have hfront : BytesAt out q (emitMovEaxImm 0 ++ [0xBB]) := hparts.left
  have hword : BytesAt out (q + 6) (wordBytes imm) := hparts.right.left
  have hend : BytesAt out (q + 10) emitInt80 := hparts.right.right
  have hroom : q + 6 ≤ out.length := Nat.le_of_lt (hword.bound (show 0 < 4 by decide))
  unfold Tcc.patchString
  dsimp only
  rw [outWord_of_bytesAt hword, if_pos hin]
  have hfront' := hfront.congr fun k (hk : k < 6) =>
    patch32_outside (v := BitVec.ofNat 32 (baseAddr + codeEnd) + imm) (hfront.bound hk)
      (show q + k < q + 5 + 1 ∨ _ by omega)
  have hend' := hend.congr fun k (hk : k < 2) =>
    patch32_outside (v := BitVec.ofNat 32 (baseAddr + codeEnd) + imm) (hend.bound hk)
      (show _ ∨ q + 5 + 1 + 4 ≤ q + 10 + k by omega)
  exact (hfront'.join (patch32_inside hroom)).join hend'

end Patches

def loadedImage (image : List Byte) : Word → Byte := X86.placed image (BitVec.ofNat 32 baseAddr)

/-- The bytes from the address on are the text and a NUL, inside the image. -/
def PointsAt (image : List Byte) (addr : Word) (text : CString) : Prop :=
  baseAddr ≤ addr.toNat ∧ BytesAt image (addr.toNat - baseAddr) (text ++ [0])

/-- The machine that comes to the place comes to a system call `SYS_PRINT` with the address. -/
def PassesAddress (image : List Byte) (place : Nat) (addr : Word) : Prop :=
  let a := BitVec.ofNat 32 (baseAddr + place)
  ∀ (p : Platform) (c : Cpu), ∃ c', Block p (loadedImage image) a 10 c c' ∧ c'.regs .eax = 0 ∧
    c'.regs .ebx = addr ∧ CodeAt (loadedImage image) (a + 10) emitInt80

/-- The system call at a literal's code gets the address of the literal. -/
def Addressed (image : List Byte) (q : Print) : Prop :=
  ∃ addr, PassesAddress image q.place addr ∧ PointsAt image addr q.text

section Image

variable {image : List Byte} {qs : List Print} {q : Print} {s : Parser} {place : Nat} {imm addr : Word}

theorem BytesAt.codeAt {bytes : List Byte} (h : BytesAt image place bytes) (hsize : image.length ≤ 2 ^ 32) :
    CodeAt (loadedImage image) (BitVec.ofNat 32 (baseAddr + place)) bytes := by
  intro k hk
  have hall := X86.codeAt_placed hsize (BitVec.ofNat 32 baseAddr) (place + k) (h.bound hk)
  have hbyte := h k hk
  rw [getElem?_eq_getElem (h.bound hk), getElem?_eq_getElem hk] at hbyte
  rw [← BitVec.ofNat_add, Nat.add_assoc, BitVec.ofNat_add]
  exact hall.trans (some.inj hbyte)

theorem decodes_print (imm : Word) :
    Decodes (emitMovEaxImm 0 ++ emitMovEbxImm imm) [.movImm .eax 0, .movImm .ebx imm] := by
  have hebx : Decodes (emitMovEbxImm imm) [.movImm .ebx imm] := by
    refine Decodes.single (Nat.le_add_left 5 10) fun tail => ?_
    change some (X86.Instr.plain (.movImm .ebx (X86.joinWord _ _ _ _)), 5) = _
    rw [X86.joinWord_byteOf]
    rfl
  exact (decodes_immediate 0).append hebx

theorem passesAddress_iff (h : BytesAt image place (printCode imm)) (hsize : image.length ≤ 2 ^ 32) :
    PassesAddress image place addr ↔ addr = imm := by
  have hcode := h.codeAt hsize
  have hblock : ∀ (p : Platform) (c : Cpu),
    Block p (loadedImage image) (BitVec.ofNat 32 (baseAddr + place)) 10 c
      ((c.setReg .eax 0).setReg .ebx imm) := fun p c =>
    Block.straight (decodes_print imm) hcode.left (show 10 < 2 ^ 32 by decide) rfl
  constructor
  · intro hpasses
    obtain ⟨c', hblock', -, hebx, -⟩ := hpasses { writable := fun _ => false, syscall := some }
      { regs := fun _ => 0, mem := fun _ => 0, flags := { zero := false, sign := false, overflow := false } }
    rw [← hebx, Block.unique hblock' (hblock _ _)]
    rfl
  · rintro rfl p c
    exact ⟨_, hblock p c, rfl, rfl, hcode.right⟩

def finalCode (s : Parser) : List Byte :=
  patch32 s.gen.out subEspPos (BitVec.ofNat 32 (frameSize s.totalLocalSize)) ++ emitEpilogue s.exitCode

theorem finish_eq (s : Parser) : finish s =
    s.printPatches.foldl (patchString (finalCode s).length s.stringTable.length)
      (finalCode s ++ s.stringTable) := rfl

variable (h : Records qs s)

include h

theorem Records.finalCode (hq : q ∈ qs) :
    BytesAt (Tcc.finalCode s ++ s.stringTable) q.place (printCode (BitVec.ofNat 32 q.offset)) := by
  have hcode := h.code q hq
  have hlow := h.low q hq
  have hprologue : prologue.length = 9 := rfl
  have hpatched := hcode.congr fun k hk =>
    patch32_outside (v := BitVec.ofNat 32 (frameSize s.totalLocalSize)) (hcode.bound hk)
      (show _ ∨ subEspPos + 4 ≤ q.place + k by unfold subEspPos; omega)
  exact (hpatched.append _).append _

theorem Records.finish_text (hq : q ∈ qs) :
    BytesAt (finish s) ((Tcc.finalCode s).length + q.offset) (q.text ++ [0]) := by
  rw [finish_eq]
  refine ((h.text q hq).behind _).patches fun p hp => .inr ?_
  rw [h.places] at hp
  obtain ⟨r, hr, rfl⟩ := mem_map.mp hp
  have hbound := h.bound (mem_of_mem_take hr)
  have hlength : (Tcc.finalCode s).length = (patch32 s.gen.out subEspPos _).length + 15 := length_append
  have hle := @le_length_patch32 s.gen.out subEspPos (BitVec.ofNat 32 (frameSize s.totalLocalSize))
  omega

theorem Records.finish_later (hq : q ∈ qs.drop 64) :
    BytesAt (finish s) q.place (printCode (BitVec.ofNat 32 q.offset)) := by
  rw [finish_eq]
  refine (h.finalCode (mem_of_mem_drop hq)).patches fun p hp => .inr ?_
  rw [h.places] at hp
  obtain ⟨r, hr, rfl⟩ := mem_map.mp hp
  have hapart := h.apart
  rw [← take_append_drop 64 qs, pairwise_append] at hapart
  have hbefore := hapart.2.2 r hr q hq
  omega

theorem Records.finish_first (hq : q ∈ qs.take 64) :
    BytesAt (finish s) q.place (printCode (BitVec.ofNat 32 (baseAddr + (Tcc.finalCode s).length) +
      BitVec.ofNat 32 q.offset)) := by
  have hmem := mem_of_mem_take hq
  have hoffset : q.offset < s.stringTable.length :=
    (h.text q hmem).bound (k := 0) (by rw [length_append]; exact Nat.succ_pos _)
  have hroom := h.room
  have hapart := h.apart
  rw [← take_append_drop 64 qs, pairwise_append] at hapart
  obtain ⟨before, after, hsplit⟩ := append_of_mem hq
  have hapart := hapart.1
  rw [hsplit, pairwise_append, pairwise_cons] at hapart
  rw [finish_eq, h.places, hsplit, map_append, map_cons, foldl_append, foldl_cons]
  refine BytesAt.patches (BytesAt.patchString (BytesAt.patches (h.finalCode hmem) ?_) ?_) ?_
  · intro p hp
    obtain ⟨r, hr, rfl⟩ := mem_map.mp hp
    have hbefore := hapart.2.2 r hr q mem_cons_self
    exact .inr (by omega)
  · rw [BitVec.toNat_ofNat, Nat.mod_eq_of_lt (by omega)]
    exact hoffset
  · intro p hp
    obtain ⟨r, hr, rfl⟩ := mem_map.mp hp
    have hafter := hapart.2.1.1 r hr
    rw [length_printCode]
    exact .inl (by omega)

variable (hload : baseAddr + (finish s).length ≤ 2 ^ 32)

include hload

theorem Records.addressed (hq : q ∈ qs.take 64) : Addressed (finish s) q := by
  have htext := h.finish_text (mem_of_mem_take hq)
  have hbound := htext.bound (k := 0) (by rw [length_append]; exact Nat.succ_pos _)
  have haddr : (BitVec.ofNat 32 (baseAddr + (Tcc.finalCode s).length) + BitVec.ofNat 32 q.offset).toNat =
      baseAddr + ((Tcc.finalCode s).length + q.offset) := by
    rw [← BitVec.ofNat_add, BitVec.toNat_ofNat, Nat.mod_eq_of_lt (by omega), Nat.add_assoc]
  refine ⟨_, (passesAddress_iff (h.finish_first hq) (by omega)).mpr rfl, ?_, ?_⟩
  · rw [haddr]
    exact Nat.le_add_right _ _
  · rw [haddr, Nat.add_sub_cancel_left]
    exact htext

theorem Records.not_addressed (hq : q ∈ qs.drop 64) : ¬ Addressed (finish s) q := by
  rintro ⟨addr, hpasses, hlow, -⟩
  have hoffset : q.offset < s.stringTable.length :=
    (h.text q (mem_of_mem_drop hq)).bound (k := 0)
      (by rw [length_append]; exact Nat.succ_pos _)
  have hroom := h.room
  have hbase : baseAddr = 134512768 := rfl
  rw [(passesAddress_iff (h.finish_later hq) (by omega)).mp hpasses, BitVec.toNat_ofNat] at hlow
  omega

theorem Records.addressed_iff : (∀ q ∈ qs, Addressed (finish s) q) ↔ qs.length ≤ 64 := by
  constructor
  · intro hall
    by_contra hlong
    obtain ⟨q, hq⟩ : ∃ q, q ∈ qs.drop 64 := by
      refine exists_mem_of_length_pos ?_
      rw [length_drop]
      omega
    exact h.not_addressed hload hq (hall q (mem_of_mem_drop hq))
  · intro hshort q hq
    exact h.addressed hload (by rw [take_of_length_le hshort]; exact hq)

end Image

section Program

variable {tokens : List Token} {size fuel : Nat} {g : Gen} {image : List Byte}

theorem programPrints_records (himage : parseCTokens fuel tokens size g = some image) :
    ∃ qs s, programPrints fuel tokens size g = some qs ∧ Records qs s ∧ finish s = image := by
  obtain ⟨s, hloop, himage⟩ := map_eq_some_iff.mp himage
  obtain ⟨qs, hqs, hrecords⟩ := (records_initial g).loop hloop
  exact ⟨qs, s, hqs, hrecords, himage⟩

/-- Every literal's system call gets the address of the literal exactly if the code prints 64 literals at most. -/
theorem literals_addressed_iff (himage : parseCTokens fuel tokens size g = some image)
    (hload : baseAddr + image.length ≤ 2 ^ 32) : ∃ qs, programPrints fuel tokens size g = some qs ∧
      ((∀ q ∈ qs, Addressed image q) ↔ qs.length ≤ 64) := by
  obtain ⟨qs, s, hqs, hrecords, rfl⟩ := programPrints_records himage
  exact ⟨qs, hqs, hrecords.addressed_iff hload⟩

def printTokens (format : CString) : List Token :=
  [trialToken .tokIdent "print", trialToken .tokLparen "(",
    { type := .tokString
      str := format
      intVal := 0 },
    trialToken .tokRparen ")", trialToken .tokSemicolon ";", trialToken .tokEof ""]

theorem literals_addressed_iff_hello :
    ∃ image, parseCTokens 9 (printTokens (cstring "hello")) 512 trialGen = some image ∧
      baseAddr + image.length ≤ 2 ^ 32 ∧ ∃ qs,
      programPrints 9 (printTokens (cstring "hello")) 512 trialGen = some qs ∧
        ((∀ q ∈ qs, Addressed image q) ↔ qs.length ≤ 64) := by
  have hlength : (parseCTokens 9 (printTokens (cstring "hello")) 512 trialGen).map List.length = some 42 := by
    decide
  obtain ⟨image, himage, hsize⟩ := map_eq_some_iff.mp hlength
  have hload : baseAddr + image.length ≤ 2 ^ 32 := by
    rw [hsize]
    decide
  exact ⟨image, himage, hload, literals_addressed_iff himage hload⟩

def manyLiterals : CString := (List.replicate 65 (cstring "a%s")).flatten

theorem not_addressed_manyLiterals :
    ∃ image qs, parseCTokens 3 (printTokens manyLiterals) 4096 trialGen = some image ∧
      baseAddr + image.length ≤ 2 ^ 32 ∧ programPrints 3 (printTokens manyLiterals) 4096 trialGen = some qs ∧
      ¬ ∀ q ∈ qs, Addressed image q := by
  have hlength : (parseLoop (printTokens manyLiterals) 4096 3 3 (initialParser trialGen)).map
      (fun s => s.gen.out.length + 15 + s.stringTable.length) = some 934 := by
    decide +kernel
  have hcount : (programPrints 3 (printTokens manyLiterals) 4096 trialGen).map List.length = some 65 := by
    decide +kernel
  obtain ⟨s, hloop, hsize⟩ := map_eq_some_iff.mp hlength
  obtain ⟨qs, hqs, hrecords⟩ := (records_initial trialGen).loop hloop
  have himage : parseCTokens 3 (printTokens manyLiterals) 4096 trialGen = some (finish s) := by
    unfold parseCTokens
    rw [hloop]
    rfl
  have hload : baseAddr + (finish s).length ≤ 2 ^ 32 := by
    rw [length_finish hrecords.patchable, hsize]
    decide
  have hprints : programPrints 3 (printTokens manyLiterals) 4096 trialGen = some qs := hqs
  rw [hprints] at hcount
  refine ⟨_, qs, himage, hload, hprints, fun hall => ?_⟩
  have hshort := (hrecords.addressed_iff hload).mp hall
  have hlong : qs.length = 65 := some.inj hcount
  exact absurd (hlong ▸ hshort) (by decide)

end Program

end JexOs.Tcc
