import JexOs.GdbStub
import Mathlib.Data.List.Induction
import Mathlib.Data.List.Perm.Basic

/-!
# Breakpoints

A breakpoint saves the byte that it replaces. Inserted twice it saves its own `int3`, and a stub that goes on
arms the breakpoint that it has stopped at as well.
-/

namespace JexOs.Gdb

open List Function

/-- A packet `Z0,<addr>,<kind>` or `z0,<addr>,<kind>`. -/
structure BreakPacket where
  insert : Bool
  digits : List UInt8
  kind : List UInt8
  digits_hex : ∀ c ∈ digits, isDigit c = true
  fits : digits.length + kind.length + 4 < bufSize

namespace BreakPacket

variable (p : BreakPacket)

def bytes : Packet := (if p.insert then 90 else 122) :: 48 :: comma :: (p.digits ++ comma :: p.kind)

def address : UInt32 := p.digits.foldl shiftIn 0

/-- What the packet does to the stub. -/
def apply (s : Stub) : Stub :=
  let s := { s with pktBuf := gdbRecvPacket p.bytes s.pktBuf }
  if p.insert then insertBreakpoint p.address s else removeBreakpoint p.address s

end BreakPacket

def boot (m : UInt32 → UInt8) : Stub :=
  { mem := m
    bps := []
    pktBuf := List.replicate bufSize 0
    steppingOver := false }

def applied (ps : List BreakPacket) (s : Stub) : Stub := ps.foldl (fun s p => p.apply s) s

def addresses (s : Stub) : List UInt32 := s.bps.map Prod.fst

/-- A byte that is not the original one is the `int3` of a breakpoint. -/
def PatchedOnly (m : UInt32 → UInt8) (s : Stub) : Prop :=
  ∀ a, s.mem a ≠ m a → s.mem a = int3 ∧ a ∈ addresses s

/-- Behind every insertion the address is removed. -/
def Removed (ps : List BreakPacket) : Prop :=
  ∀ q p t, ps = q ++ p :: t → p.insert = true → ∃ p' ∈ t, p'.insert = false ∧ p'.address = p.address

/-- An address that has a breakpoint is inserted again only where the table is full, or where the original
byte is an `int3`. -/
def NeverTwice (m : UInt32 → UInt8) (ps : List BreakPacket) : Prop :=
  ∀ q p t, ps = q ++ p :: t → p.insert = true → p.address ∈ addresses (applied q (boot m)) →
    maxBp ≤ (applied q (boot m)).bps.length ∨ m p.address = int3

section Packets

theorem readAddr_digits {digits : List UInt8} (rest : List UInt8) (h : ∀ c ∈ digits, isDigit c = true)
    (n : UInt32) : readAddr n (digits ++ comma :: rest) = (digits.foldl shiftIn n, comma :: rest) := by
  induction digits generalizing n with
  | nil => rfl
  | cons c digits ih =>
    have hc := h c mem_cons_self
    have hzero : c ≠ 0 := by
      rintro rfl
      cases hc
    have hcomma : c ≠ comma := by
      rintro rfl
      cases hc
    rw [cons_append, readAddr, if_pos ⟨hzero, hcomma, hc⟩, ih fun c' hc' => h c' (mem_cons_of_mem _ hc')]
    rfl

theorem gdbRecvPacket_bytes (p : BreakPacket) (buf : List UInt8) : ∃ rest,
    gdbRecvPacket p.bytes buf = (if p.insert then 90 else 122) :: 48 :: comma ::
      (p.digits ++ comma :: rest) := by
  have hlength : p.bytes.length ≤ bufSize - 1 := by
    have := p.fits
    simp only [BreakPacket.bytes, length_cons, length_append]
    omega
  refine ⟨p.kind ++ buf.drop p.bytes.length, ?_⟩
  rw [gdbRecvPacket, take_of_length_le hlength]
  simp only [BreakPacket.bytes, cons_append, append_assoc]

theorem command_bytes (regs : Regs) (p : BreakPacket)
    (s : Stub) : command regs p.bytes s = some (p.apply s, none) := by
  obtain ⟨rest, hbuf⟩ := gdbRecvPacket_bytes p s.pktBuf
  have haddr : breakAddr (gdbRecvPacket p.bytes s.pktBuf) = p.address := by
    rw [hbuf, breakAddr]
    exact congrArg Prod.fst (readAddr_digits rest p.digits_hex 0)
  have hhead : (gdbRecvPacket p.bytes s.pktBuf).head? = some (if p.insert then 90 else 122) := by
    rfl
  have hempty : p.bytes.isEmpty = false := rfl
  simp only [command, hempty, Bool.false_eq_true, if_false, hhead, haddr, BreakPacket.apply]
  cases p.insert with
  | true => rfl
  | false => rfl

theorem commandLoop_bytes (regs : Regs) (ps : List BreakPacket) (s : Stub) :
    commandLoop regs (ps.map BreakPacket.bytes) s = some (applied ps s, none) := by
  induction ps generalizing s with
  | nil => rfl
  | cons p ps ih =>
    rw [map_cons, commandLoop, command_bytes]
    exact ih _

theorem applied_snoc (ps : List BreakPacket) (p : BreakPacket) (s : Stub) :
    applied (ps ++ [p]) s = p.apply (applied ps s) := by
  rw [applied, foldl_append]
  rfl

end Packets

section Table

variable {m : UInt32 → UInt8} {s : Stub} {ps : List BreakPacket} {p : BreakPacket} {a : UInt32}

theorem dropEntry_perm {bps : List (UInt32 × UInt8)} {i : Nat} (h : i < bps.length) :
    (bps[i] :: dropEntry bps i).Perm bps := by
  obtain ⟨front, last, rfl⟩ : ∃ front last, bps = front ++ [last] :=
    ⟨_, _, (dropLast_concat_getLast (ne_nil_of_length_pos (Nat.zero_lt_of_lt h))).symm⟩
  have hswap : (last :: front).Perm (front ++ [last]) := (perm_append_singleton _ _).symm
  rw [dropEntry, getLast?_concat]
  dsimp only
  by_cases hi : i < front.length
  · rw [set_append_left _ _ hi, dropLast_concat, getElem_append_left hi]
    calc front[i] :: front.set i last
      List.Perm _ (front[i] :: last :: front.eraseIdx i) := (set_perm_cons_eraseIdx hi last).cons _
      List.Perm _ (last :: front[i] :: front.eraseIdx i) := List.Perm.swap _ _ _
      List.Perm _ (last :: front) := (getElem_cons_eraseIdx_perm hi).cons _
      List.Perm _ (front ++ [last]) := hswap
  · rw [length_append] at h
    obtain rfl : i = front.length := Nat.le_antisymm (Nat.le_of_lt_succ h) (Nat.not_lt.mp hi)
    rw [set_append_right _ _ (Nat.le_refl _), Nat.sub_self, set_cons_zero,
      dropLast_concat, getElem_concat_length rfl]
    exact hswap

theorem removeBreakpoint_cases (a : UInt32) (s : Stub) : (a ∉ addresses s ∧ removeBreakpoint a s = s) ∨
    ∃ orig, ((a, orig) :: (removeBreakpoint a s).bps).Perm s.bps ∧
      (removeBreakpoint a s).mem = Function.update s.mem a orig := by
  unfold removeBreakpoint
  cases hfind : s.bps.findIdx? (·.1 == a) with
  | none =>
    refine .inl ⟨fun hmem => ?_, rfl⟩
    obtain ⟨bp, hbp, rfl⟩ := mem_map.mp hmem
    exact absurd (findIdx?_eq_none_iff.mp hfind bp hbp) (by simp)
  | some i =>
    obtain ⟨hi, heq, -⟩ := findIdx?_eq_some_iff_getElem.mp hfind
    refine .inr ⟨s.bps[i].2, ?_⟩
    have hentry : (a, s.bps[i].2) = s.bps[i] := Prod.ext (beq_iff_eq.mp heq).symm rfl
    dsimp only
    rw [getElem?_eq_getElem hi, hentry]
    exact ⟨dropEntry_perm hi, rfl⟩

def StandsInserted (ps : List BreakPacket) (a : UInt32) : Prop :=
  ∃ q p t, ps = q ++ p :: t ∧ p.insert = true ∧ p.address = a ∧
    ∀ p' ∈ t, p'.insert = false → p'.address ≠ a

structure Transparent (m : UInt32 → UInt8) (ps : List BreakPacket) (s : Stub) : Prop where
  saved : ∀ bp ∈ s.bps, bp.2 = m bp.1
  bytes : ∀ a, s.mem a = if a ∈ addresses s then int3 else m a
  once : ∀ a, m a ≠ int3 → (addresses s).count a ≤ 1
  inserted : ∀ a ∈ addresses s, m a ≠ int3 → StandsInserted ps a

theorem StandsInserted.snoc (h : StandsInserted ps a) (hp : p.insert = false → p.address ≠ a) :
    StandsInserted (ps ++ [p]) a := by
  obtain ⟨q, p₀, t, rfl, hins, haddr, hlast⟩ := h
  refine ⟨q, p₀, t ++ [p], append_assoc _ _ _, hins, haddr, fun p' hmem => ?_⟩
  rcases mem_append.mp hmem with hmem | hmem
  · exact hlast p' hmem
  · cases mem_singleton.mp hmem
    exact hp

theorem Transparent.insert (h : Transparent m ps s) (hins : p.insert = true)
    (hfree : p.address ∈ addresses s → maxBp ≤ s.bps.length ∨ m p.address = int3) :
    Transparent m (ps ++ [p]) (insertBreakpoint p.address s) := by
  have hsnoc : ∀ a ∈ addresses s, m a ≠ int3 → StandsInserted (ps ++ [p]) a := fun a ha hm =>
    (h.inserted a ha hm).snoc fun hp => absurd hp (by rw [hins]; exact Bool.noConfusion)
  unfold insertBreakpoint
  by_cases hroom : s.bps.length < maxBp
  · rw [if_pos hroom]
    have hbyte : s.mem p.address = m p.address := by
      rw [h.bytes]
      split
      · rename_i hmem
        exact ((hfree hmem).resolve_left (Nat.not_le.mpr hroom)).symm
      · rfl
    obtain ⟨t, ht⟩ : ∃ t : Stub, t =
        { s with
          bps := s.bps ++ [(p.address, s.mem p.address)]
          mem := Function.update s.mem p.address int3 } := ⟨_, rfl⟩
    have hadd : addresses t = addresses s ++ [p.address] := by
      rw [ht, addresses, map_append]
      rfl
    rw [← ht]
    refine
      { saved := fun bp hbp => ?_
        bytes := fun a => ?_
        once := fun a hm => ?_
        inserted := fun a ha hm => ?_ }
    · rw [ht] at hbp
      rcases mem_append.mp hbp with hbp | hbp
      · exact h.saved bp hbp
      · cases mem_singleton.mp hbp
        exact hbyte
    · have hmem : t.mem = Function.update s.mem p.address int3 := by rw [ht]
      rw [hadd, hmem]
      by_cases ha : a = p.address
      · rw [ha, update_self, if_pos (mem_append_right _ mem_cons_self)]
      · rw [update_of_ne ha, h.bytes]
        refine if_congr ?_ rfl rfl
        rw [mem_append, mem_singleton, or_iff_left ha]
    · rw [hadd, count_append, count_singleton]
      by_cases ha : p.address = a
      · have hnone : a ∉ addresses s := fun hmem =>
          (hfree (ha ▸ hmem)).elim (Nat.not_le.mpr hroom) (ha ▸ hm)
        rw [count_eq_zero.mpr hnone]
        split <;> omega
      · rw [if_neg (by simpa using ha)]
        exact h.once a hm
    · rw [hadd] at ha
      rcases mem_append.mp ha with ha | ha
      · exact hsnoc a ha hm
      · exact ⟨ps, p, [], rfl, hins, (mem_singleton.mp ha).symm, nofun⟩
  · rw [if_neg hroom]
    exact { h with inserted := hsnoc }

theorem Transparent.remove (h : Transparent m ps s) :
    Transparent m (ps ++ [p]) (removeBreakpoint p.address s) := by
  have hsnoc : ∀ a ∈ addresses s, m a ≠ int3 → a ≠ p.address → StandsInserted (ps ++ [p]) a :=
    fun a ha hm hne => (h.inserted a ha hm).snoc fun _ => Ne.symm hne
  rcases removeBreakpoint_cases p.address s with ⟨hnone, heq⟩ | ⟨orig, hperm, hmem⟩
  · rw [heq]
    exact { h with inserted := fun a ha hm => hsnoc a ha hm fun heq => hnone (heq ▸ ha) }
  · have haddr : (p.address :: addresses (removeBreakpoint p.address s)).Perm (addresses s) :=
      hperm.map Prod.fst
    have hkeep : ∀ {a}, a ∈ addresses (removeBreakpoint p.address s) → a ∈ addresses s := fun ha =>
      haddr.mem_iff.mp (mem_cons_of_mem _ ha)
    have hgone : m p.address ≠ int3 → p.address ∉ addresses (removeBreakpoint p.address s) := by
      intro hm
      have hcount := h.once _ hm
      rw [← haddr.count_eq, count_cons_self] at hcount
      exact count_eq_zero.mp (Nat.le_zero.mp (Nat.le_of_succ_le_succ hcount))
    refine
      { saved := fun bp hbp => h.saved bp (hperm.mem_iff.mp (mem_cons_of_mem _ hbp))
        bytes := fun a => ?_
        once := fun a hm => ?_
        inserted := fun a ha hm => hsnoc a (hkeep ha) hm fun heq => hgone (heq ▸ hm) (heq ▸ ha) }
    · rw [hmem]
      by_cases ha : a = p.address
      · have horig : orig = m p.address := h.saved _ (hperm.mem_iff.mp mem_cons_self)
        rw [ha, update_self, horig]
        by_cases hm : m p.address = int3
        · rw [hm, ite_self]
        · rw [if_neg (hgone hm)]
      · rw [update_of_ne ha, h.bytes]
        refine if_congr ?_ rfl rfl
        rw [← haddr.mem_iff, mem_cons, or_iff_right ha]
    · refine Nat.le_trans ?_ (h.once a hm)
      rw [← haddr.count_eq]
      exact count_le_count_cons

theorem Transparent.boot (m : UInt32 → UInt8) : Transparent m [] (boot m) :=
  { saved := nofun
    bytes := fun _ => rfl
    once := fun _ _ => Nat.zero_le _
    inserted := nofun }

theorem applied_transparent (h : NeverTwice m ps) : Transparent m ps (applied ps (Gdb.boot m)) := by
  induction ps using List.reverseRecOn with
  | nil => exact Transparent.boot m
  | append_singleton ps p ih =>
    have hps : NeverTwice m ps := fun q p' t heq => h q p' (t ++ [p]) (by rw [heq]; simp)
    have hstep := ih hps
    -- the packet buffer is nothing that the invariant speaks of
    have hbuf : Transparent m ps
        { applied ps (Gdb.boot m) with
          pktBuf := gdbRecvPacket p.bytes (applied ps (Gdb.boot m)).pktBuf } :=
      { hstep with }
    rw [applied_snoc, BreakPacket.apply]
    cases hins : p.insert with
    | true => exact hbuf.insert hins (h ps p [] rfl hins)
    | false => exact hbuf.remove

/-- **Breakpoints are transparent** in every run that inserts none twice. -/
theorem breakpoints_transparent (m : UInt32 → UInt8) (regs : Regs) (h : NeverTwice m ps) :
    ∃ s, commandLoop regs (ps.map BreakPacket.bytes) (Gdb.boot m) = some (s, none) ∧
      PatchedOnly m s ∧ (Removed ps → s.mem = m) := by
  have htrans := applied_transparent h
  refine ⟨_, commandLoop_bytes regs ps _, fun a hne => ?_, fun hremoved => ?_⟩
  · rw [htrans.bytes] at hne ⊢
    by_cases ha : a ∈ addresses (applied ps (Gdb.boot m))
    · exact ⟨if_pos ha, ha⟩
    · exact absurd (if_neg ha) hne
  · funext a
    rw [htrans.bytes]
    split
    · rename_i ha
      by_contra hm
      obtain ⟨q, p, t, heq, hins, rfl, hlast⟩ := htrans.inserted a ha fun heq => hm heq.symm
      obtain ⟨p', hmem, hrem, haddr⟩ := hremoved q p t heq hins
      exact hlast p' hmem hrem haddr
    · rfl

end Table

section Twice

def nops : UInt32 → UInt8 := fun _ => 0x90

/-- `Z0,1000,1` or `z0,1000,1`. -/
def atThousand (insert : Bool) : BreakPacket :=
  { insert := insert
    digits := [49, 48, 48, 48]
    kind := [49]
    digits_hex := by simp [isDigit]
    fits := by decide }

theorem breakpoints_transparent_once :
    ∃ s, commandLoop ⟨0, 0⟩ ([atThousand true, atThousand false].map BreakPacket.bytes)
      (boot nops) = some (s, none) ∧
      PatchedOnly nops s ∧ (Removed [atThousand true, atThousand false] → s.mem = nops) := by
  refine breakpoints_transparent nops ⟨0, 0⟩ ?_
  rintro (_ | ⟨q₁, _ | ⟨q₂, q⟩⟩) p t heq hins hmem
  · cases hmem
  · cases heq
    cases hins
  · simpa using congrArg List.length heq

def twice : List BreakPacket :=
  [atThousand true, atThousand true, atThousand false, atThousand false]

theorem twice_removed : Removed twice := by
  rintro (_ | ⟨q₁, _ | ⟨q₂, _ | ⟨q₃, _ | ⟨q₄, q⟩⟩⟩⟩) p t heq hins
  · cases heq
    exact ⟨atThousand false, by simp, rfl, rfl⟩
  · cases heq
    exact ⟨atThousand false, by simp, rfl, rfl⟩
  · cases heq
    cases hins
  · cases heq
    cases hins
  · simpa [twice] using congrArg List.length heq

/-- The second insertion saves the `int3` of the first, and the second removal puts it back. -/
theorem not_transparent_twice :
    ¬ ∀ m regs ps s, commandLoop regs (ps.map BreakPacket.bytes) (boot m) = some (s, none) →
      PatchedOnly m s ∧ (Removed ps → s.mem = m) := by
  intro h
  obtain ⟨-, hmem⟩ := h nops ⟨0, 0⟩ twice _ (commandLoop_bytes _ _ _)
  have hbyte := congrFun (hmem twice_removed) 0x1000
  revert hbyte
  decide

end Twice

section Continue

variable {s : Stub} {regs : Regs} {a : UInt32} {orig : UInt8}

/-- None of the packets `M`, `Z`, `z`, `c` and `s`. -/
def Query (p : Packet) : Prop := ∀ c, p.head? = some c → c ∉ [77, 90, 122, 99, 115]

/-- The program goes on at `a` with its own instruction, and the other breakpoints are armed. -/
def Resumes (a : UInt32) (orig : UInt8) (s : Stub) : Prop :=
  s.mem a = orig ∧ ∀ bp ∈ s.bps, bp.1 ≠ a → s.mem bp.1 = int3

theorem head_gdbRecvPacket {p : Packet} {c : UInt8} (h : p.head? = some c) (buf : List UInt8) :
    (gdbRecvPacket p buf).head? = some c := by
  cases p with
  | nil => cases h
  | cons c' rest =>
    cases h
    rfl

theorem command_query (regs : Regs) {p : Packet} (h : Query p) (s : Stub) :
    ∃ buf, command regs p s = some ({ s with pktBuf := buf }, none) := by
  cases hp : p with
  | nil => exact ⟨s.pktBuf, rfl⟩
  | cons c rest =>
    have hc := h c (by rw [hp]; rfl)
    refine ⟨gdbRecvPacket (c :: rest) s.pktBuf, ?_⟩
    simp only [command, isEmpty_cons, Bool.false_eq_true, if_false, head_gdbRecvPacket head?_cons]
    split
    all_goals first | rfl | (rename_i heq; cases heq; exact absurd (by decide) hc)

theorem commandLoop_queries (regs : Regs) {queries : List Packet} (h : ∀ p ∈ queries, Query p)
    (packets : List Packet) (s : Stub) :
    ∃ buf, commandLoop regs (queries ++ packets) s = commandLoop regs packets { s with pktBuf := buf } := by
  induction queries generalizing s with
  | nil => exact ⟨s.pktBuf, rfl⟩
  | cons p queries ih =>
    obtain ⟨buf, hcommand⟩ := command_query regs (h p mem_cons_self) s
    rw [cons_append, commandLoop, hcommand]
    exact ih (fun p' hp' => h p' (mem_cons_of_mem _ hp')) _

theorem rearm_mem (s : Stub) (b : UInt32) : (rearm s).mem b = if b ∈ addresses s then int3 else s.mem b := by
  unfold rearm addresses
  generalize s.mem = m
  induction s.bps generalizing m with
  | nil => rfl
  | cons bp bps ih =>
    rw [foldl_cons, ih, map_cons]
    by_cases hmem : b ∈ bps.map Prod.fst
    · rw [if_pos hmem, if_pos (mem_cons_of_mem _ hmem)]
    · rw [if_neg hmem]
      by_cases hb : b = bp.1
      · rw [hb, update_self, if_pos mem_cons_self]
      · rw [update_of_ne hb, if_neg fun h => (mem_cons.mp h).elim hb hmem]

/-- The breakpoint that was hit is armed with the others. -/
theorem continue_resumes_iff {queries : List Packet} {c : Packet}
    (hhit : s.bps.find? (·.1 == regs.eip - 1) = some (a, orig)) (hqueries : ∀ p ∈ queries, Query p)
    (hc : c.head? = some 99) :
    ∃ s' regs', gdbStubHandler regs (queries ++ [c]) s = some (s', some regs') ∧ regs'.eip = a ∧
      (Resumes a orig s' ↔ orig = int3) := by
  have haddr := find?_some hhit
  obtain rfl : a = regs.eip - 1 := beq_iff_eq.mp haddr
  obtain ⟨buf, hloop⟩ := commandLoop_queries { regs with eip := regs.eip - 1 } hqueries [c]
    { s with mem := Function.update s.mem (regs.eip - 1) orig }
  have hempty : c.isEmpty = false := by
    cases c with
    | nil => cases hc
    | cons _ _ => rfl
  unfold gdbStubHandler
  dsimp only
  rw [hhit]
  dsimp only
  rw [hloop]
  simp only [commandLoop, command, hempty, Bool.false_eq_true, if_false, head_gdbRecvPacket hc]
  refine ⟨_, _, rfl, rfl, ?_⟩
  have hmem : regs.eip - 1 ∈ s.bps.map Prod.fst := mem_map_of_mem (mem_of_find?_eq_some hhit)
  unfold Resumes
  rw [rearm_mem, if_pos (by exact hmem), eq_comm]
  refine and_iff_left fun bp hbp _ => ?_
  rw [rearm_mem]
  exact if_pos (mem_map_of_mem hbp)

/-- A breakpoint at `0x1000` over a `nop`. -/
def armed : Stub := insertBreakpoint 0x1000 (boot nops)

theorem continue_resumes_iff_armed :
    ∃ s' regs', gdbStubHandler ⟨0x1001, 0⟩ ([[63]] ++ [[99]]) armed = some (s', some regs') ∧
      regs'.eip = 0x1000 ∧ (Resumes 0x1000 0x90 s' ↔ (0x90 : UInt8) = int3) := by
  refine continue_resumes_iff (by decide) (fun p hp c hc => ?_) rfl
  cases mem_singleton.mp hp
  cases hc
  decide

/-- At `0x1000` the program is stopped by the `int3` again. -/
theorem not_resumes_armed : ¬ ∀ s regs a orig c s' regs', s.bps.find? (·.1 == regs.eip - 1) = some (a, orig) →
      c.head? = some 99 → gdbStubHandler regs [c] s = some (s', some regs') →
      regs'.eip = a ∧ Resumes a orig s' := by
  intro h
  obtain ⟨-, hbyte, -⟩ := h armed ⟨0x1001, 0⟩ 0x1000 0x90 [99] _ _ (by decide) rfl rfl
  revert hbyte
  decide

end Continue

end JexOs.Gdb
