import JexOs.Lib.SlotMap
import JexOs.Proof.NetUdp

/-!
# The table of UDP handlers is a map from ports

Registering a port enters it or replaces its handler, and fails where the map is full and the port absent.
-/

namespace JexOs.Net

open ByteMem SlotMap Tcp List Option

abbrev PortMap := Finmap fun _ : UInt16 => UInt32 × UInt32

inductive HandlerCall where
  | register (port : UInt16) (handler userdata : UInt32)
  | unregister (port : UInt16)
deriving DecidableEq, Repr

/-- `net_udp_unregister` returns nothing, which is taken as 0. -/
def PortMap.step (m : PortMap) : HandlerCall → Int × PortMap
  | .register port handler userdata =>
    if m.keys.card = udpMaxHandlers ∧ port ∉ m then (-1, m)
    else (0, m.insert port (handler, userdata))
  | .unregister port => (0, m.erase port)

def PortMap.run (m : PortMap) : List HandlerCall → List Int × PortMap
  | [] => ([], m)
  | call :: calls =>
    let (result, m) := m.step call
    let (results, m) := m.run calls
    (result :: results, m)

/-- The handler registered most recently for the port and not unregistered since, of calls with their
results. -/
def lastHandler (port : UInt16) : Option (UInt32 × UInt32) → List (HandlerCall × Int) →
    Option (UInt32 × UInt32)
  | h, [] => h
  | h, (.register port' handler userdata, result) :: calls =>
    lastHandler port (if port' = port ∧ result = 0 then some (handler, userdata) else h) calls
  | h, (.unregister port', _) :: calls => lastHandler port (if port' = port then none else h) calls

theorem PortMap.lookup_run (calls : List HandlerCall) (m : PortMap) (port : UInt16) :
    (m.run calls).2.lookup port = lastHandler port (m.lookup port) (calls.zip (m.run calls).1) := by
  induction calls generalizing m with
  | nil => rfl
  | cons call calls ih =>
    have hrun : (m.run (call :: calls)).2 = ((m.step call).2.run calls).2 := rfl
    rw [hrun, ih]
    cases call with
    | register port' handler userdata =>
      have hresults : (m.run (.register port' handler userdata :: calls)).1 =
          (m.step (.register port' handler userdata)).1 ::
            ((m.step (.register port' handler userdata)).2.run calls).1 := rfl
      rw [hresults, zip_cons_cons, lastHandler]
      congr 1
      by_cases hfull : m.keys.card = udpMaxHandlers ∧ port' ∉ m
      · have hstep : m.step (.register port' handler userdata) = (-1, m) := if_pos hfull
        rw [hstep]
        exact (if_neg fun h => absurd h.2 (show ¬(-1 : Int) = 0 by decide)).symm
      · have hstep : m.step (.register port' handler userdata) =
          (0, m.insert port' (handler, userdata)) := if_neg hfull
        rw [hstep]
        by_cases hport : port' = port
        · subst hport
          rw [if_pos ⟨rfl, rfl⟩]
          exact Finmap.lookup_insert m
        · rw [if_neg fun h => hport h.1]
          exact Finmap.lookup_insert_of_ne m fun h => hport h.symm
    | unregister port' =>
      have hresults : (m.run (.unregister port' :: calls)).1 =
        0 :: (PortMap.run (m.erase port') calls).1 := rfl
      rw [hresults, zip_cons_cons, lastHandler]
      congr 1
      by_cases hport : port' = port
      · subst hport
        rw [if_pos rfl]
        exact Finmap.lookup_erase port' m
      · rw [if_neg hport]
        exact Finmap.lookup_erase_ne fun h => hport h.symm

def netInitHandlers (t : UdpHandlers) : UdpHandlers where
  entries := t.entries.map fun entry => { entry with active := false }
  length_eq := (length_map _).trans t.length_eq
  unique := by
    rw [pairwise_map]
    refine pairwise_of_forall fun a b port hserves => ?_
    cases hserves

def UdpHandlers.step (t : UdpHandlers) : HandlerCall → Int × UdpHandlers
  | .register port handler userdata =>
    match h : netUdpRegister port handler userdata t.entries with
    | some entries =>
      (0,
        { entries := entries
          length_eq := (netUdpRegister_unique t.unique h).2.1.trans t.length_eq
          unique := (netUdpRegister_unique t.unique h).1 })
    | none => (-1, t)
  | .unregister port =>
    (0,
      { entries := netUdpUnregister port t.entries
        length_eq := (netUdpUnregister_unique t.unique).2.trans t.length_eq
        unique := (netUdpUnregister_unique t.unique).1 })

def UdpHandlers.run (t : UdpHandlers) : List HandlerCall → List Int × UdpHandlers
  | [] => ([], t)
  | call :: calls =>
    let (result, t) := t.step call
    let (results, t) := t.run calls
    (result :: results, t)

def UdpHandlerEntry.view (entry : UdpHandlerEntry) : Option (UInt16 × (UInt32 × UInt32)) :=
  if entry.active then some (entry.port, entry.handler, entry.userdata) else none

theorem serves_iff_view {entry : UdpHandlerEntry} {port : UInt16} :
    entry.serves port = true ↔ ∃ v, entry.view = some (port, v) := by
  obtain ⟨port', handler, userdata, active⟩ := entry
  cases active with
  | false =>
    constructor
    · intro h
      cases h
    · rintro ⟨v, h⟩
      cases h
  | true =>
    constructor
    · intro h
      obtain rfl : port' = port := beq_iff_eq.mp h
      exact ⟨_, rfl⟩
    · rintro ⟨v, h⟩
      exact beq_iff_eq.mpr (Prod.mk.inj (some.inj h)).1

theorem view_eq_none_iff {entry : UdpHandlerEntry} : entry.view = none ↔ entry.active = false := by
  obtain ⟨port, handler, userdata, active⟩ := entry
  cases active with
  | false => exact ⟨fun _ => rfl, fun _ => rfl⟩
  | true =>
    constructor <;>
    · intro h
      cases h

section Step

variable {entries entries' : List UdpHandlerEntry} {m : PortMap} {port : UInt16}
  {handler userdata : UInt32}

variable (h : Represents UdpHandlerEntry.view entries m)

include h

theorem not_mem_of_findIdx? (hnone : entries.findIdx? (·.serves port) = none) : port ∉ m := by
  rw [h.mem_iff]
  rintro ⟨i, slot, v, hslot, hview⟩
  have hserves := findIdx?_eq_none_iff.mp hnone slot (mem_of_getElem? hslot)
  rw [serves_iff_view.mpr ⟨v, hview⟩] at hserves
  cases hserves

theorem netUdpRegister_some (hregister : netUdpRegister port handler userdata entries = some entries') :
    (port ∈ m ∨ m.keys.card < entries.length) ∧
      Represents UdpHandlerEntry.view entries' (m.insert port (handler, userdata)) := by
  unfold netUdpRegister at hregister
  split at hregister
  · rename_i i hfind
    obtain ⟨hi, hserves, -⟩ := findIdx?_eq_some_iff_getElem.mp hfind
    have hold : entries[i]? = some entries[i] := getElem?_eq_getElem hi
    obtain ⟨v, hv⟩ := serves_iff_view.mp hserves
    cases hregister
    rw [modify_of_getElem? hold]
    refine ⟨.inl (h.mem_iff.mpr ⟨i, _, v, hold, hv⟩), h.insert hold ?_ (.inl ⟨v, hv⟩)⟩
    generalize entries[i] = old at hv
    obtain ⟨port', handler', userdata', active⟩ := old
    cases active with
    | false => cases hv
    | true =>
      obtain ⟨rfl, -⟩ := Prod.mk.inj (some.inj hv)
      rfl
  · rename_i hnone
    have habsent : port ∉ m := not_mem_of_findIdx? h hnone
    split at hregister
    · rename_i i hfind
      obtain ⟨hi, hactive, -⟩ := findIdx?_eq_some_iff_getElem.mp hfind
      have hold : entries[i]? = some entries[i] := getElem?_eq_getElem hi
      have hfree : entries[i].view = none := view_eq_none_iff.mpr (Bool.not_eq_true' _ ▸ hactive)
      cases hregister
      refine ⟨.inr ?_, h.insert hold rfl (.inr ⟨hfree, habsent⟩)⟩
      refine Nat.lt_of_le_of_ne h.card_le fun hfull => ?_
      exact h.full_iff.mp hfull _ (getElem_mem hi) hfree
    · cases hregister

theorem netUdpRegister_none (hregister : netUdpRegister port handler userdata entries = none) :
    m.keys.card = entries.length ∧ port ∉ m := by
  unfold netUdpRegister at hregister
  split at hregister
  · cases hregister
  · rename_i hserves
    split at hregister
    · cases hregister
    · rename_i hactive
      refine ⟨h.full_iff.mpr fun slot hslot hfree => ?_, not_mem_of_findIdx? h hserves⟩
      have hbusy := findIdx?_eq_none_iff.mp hactive slot hslot
      rw [view_eq_none_iff.mp hfree] at hbusy
      cases hbusy

theorem netUdpUnregister_erase :
    Represents UdpHandlerEntry.view (netUdpUnregister port entries) (m.erase port) := by
  unfold netUdpUnregister
  split
  · rename_i i hfind
    obtain ⟨hi, hserves, -⟩ := findIdx?_eq_some_iff_getElem.mp hfind
    have hold : entries[i]? = some entries[i] := getElem?_eq_getElem hi
    obtain ⟨v, hv⟩ := serves_iff_view.mp hserves
    rw [modify_of_getElem? hold]
    exact h.erase hold hv rfl
  · rename_i hnone
    have habsent : port ∉ m := not_mem_of_findIdx? h hnone
    have herase : m.erase port = m := by
      refine Finmap.ext_lookup fun port' => ?_
      by_cases hport : port' = port
      · subst hport
        rw [Finmap.lookup_erase, Finmap.lookup_eq_none.mpr habsent]
      · exact Finmap.lookup_erase_ne hport
    rw [herase]
    exact h

end Step

section Histories

variable {t : UdpHandlers} {m : PortMap}

theorem step_represents (h : Represents UdpHandlerEntry.view t.entries m) (call : HandlerCall) :
    (t.step call).1 = (m.step call).1 ∧
    Represents UdpHandlerEntry.view (t.step call).2.entries (m.step call).2 := by
  cases call with
  | register port handler userdata =>
    dsimp only [UdpHandlers.step, PortMap.step]
    split
    · rename_i entries' hregister
      obtain ⟨hroom, hafter⟩ := netUdpRegister_some h hregister
      rw [if_neg]
      · exact ⟨rfl, hafter⟩
      · rintro ⟨hfull, habsent⟩
        rcases hroom with hpresent | hroom
        · exact habsent hpresent
        · rw [hfull, t.length_eq] at hroom
          exact lt_irrefl _ hroom
    · rename_i hregister
      obtain ⟨hfull, habsent⟩ := netUdpRegister_none h hregister
      rw [if_pos ⟨hfull.trans t.length_eq, habsent⟩]
      exact ⟨rfl, h⟩
  | unregister port => exact ⟨rfl, netUdpUnregister_erase h⟩

theorem run_represents (h : Represents UdpHandlerEntry.view t.entries m) (calls : List HandlerCall) :
    (t.run calls).1 = (m.run calls).1 ∧
    Represents UdpHandlerEntry.view (t.run calls).2.entries (m.run calls).2 := by
  induction calls generalizing t m with
  | nil => exact ⟨rfl, h⟩
  | cons call calls ih =>
    obtain ⟨hresult, hstep⟩ := step_represents h call
    obtain ⟨hresults, hrun⟩ := ih hstep
    exact ⟨congrArg₂ List.cons hresult hresults, hrun⟩

theorem netInitHandlers_represents (stale : UdpHandlers) :
    Represents UdpHandlerEntry.view (netInitHandlers stale).entries ∅ := by
  refine represents_empty fun entry hentry => ?_
  obtain ⟨old, -, rfl⟩ := mem_map.mp hentry
  rfl

def PortMap.dispatch (m : PortMap) (data : Mem) (ipHdr udpLen : Nat) : List Output :=
  match m.lookup (UInt16.ofNat (be16 data (ipHdr + 2))) with
  | none => []
  | some (handler, userdata) =>
    [.udp handler userdata (ipSrc data) (UInt16.ofNat (load16 data ipHdr))
      (bytesOf (behind data (ipHdr + udpHeaderLen)) (udpLen - udpHeaderLen))]

theorem dispatch_eq {host : Host} (h : Represents UdpHandlerEntry.view host.handlers.entries m)
    (data : Mem) (ipHdr udpLen : Nat) :
    Net.dispatch host data ipHdr udpLen = m.dispatch data ipHdr udpLen := by
  unfold Net.dispatch PortMap.dispatch
  have hfind := h.find?_view (p := (·.serves (UInt16.ofNat (be16 data (ipHdr + 2)))))
    fun slot => serves_iff_view
  cases hentry : host.handlers.entries.find? (·.serves (UInt16.ofNat (be16 data (ipHdr + 2)))) with
  | none =>
    rw [hentry] at hfind
    rw [map_eq_none_iff.mp hfind.symm]
  | some entry =>
    have hserves : entry.serves (UInt16.ofNat (be16 data (ipHdr + 2))) = true := by
      simpa only using find?_some hentry
    obtain ⟨v, hv⟩ := serves_iff_view.mp hserves
    rw [hentry, bind_some, hv] at hfind
    obtain ⟨v', hv', heq⟩ := map_eq_some_iff.mp hfind.symm
    obtain ⟨port, handler, userdata, active⟩ := entry
    cases active with
    | false => cases hv
    | true =>
      rw [hv']
      obtain ⟨-, rfl⟩ := Prod.mk.inj (some.inj hv)
      obtain ⟨-, rfl⟩ := Prod.mk.inj heq
      rfl

/-- After any calls since `net_init` the table returns what the map returns and calls its handlers. -/
theorem udp_table_refines_map (stale : UdpHandlers) (calls : List HandlerCall) :
    let t := (netInitHandlers stale).run calls
    let m := PortMap.run ∅ calls
    t.1 = m.1 ∧ m.2.keys.card ≤ 8 ∧ Unique t.2.entries ∧
      (∀ (host : Host) (data : Mem) (ipHdr udpLen : Nat),
        dispatch { host with handlers := t.2 } data ipHdr udpLen = m.2.dispatch data ipHdr udpLen) ∧
      ∀ port, m.2.lookup port = lastHandler port none (calls.zip t.1) := by
  obtain ⟨hresults, hrun⟩ := run_represents (netInitHandlers_represents stale) calls
  refine ⟨hresults, ?_, ((netInitHandlers stale).run calls).2.unique, ?_, ?_⟩
  · calc (PortMap.run ∅ calls).2.keys.card
        ≤ ((netInitHandlers stale).run calls).2.entries.length := hrun.card_le
      _ = 8 := ((netInitHandlers stale).run calls).2.length_eq
  · intro host data ipHdr udpLen
    exact dispatch_eq hrun data ipHdr udpLen
  · intro port
    rw [hresults]
    exact PortMap.lookup_run calls ∅ port

end Histories

end JexOs.Net
