import JexOs.Proof.DhcpSend
import Mathlib.Data.List.Induction

/-!
# What a lease is taken from

`dhcp_start` does not look at the type of the message that it takes for the acknowledgement: it carries the
current transaction id, and is an acknowledgement if the last message that was stored is one.
-/

namespace JexOs.Dhcp

open ByteMem Tcp Net List

def Taken.options (t : Taken) : List UInt8 := (bytesOf t.data t.len).drop optionsOffset

def Taken.isAck (t : Taken) : Prop := HasOption t.options dhcpOptMsgType [dhcpAck]

def Taken.yiaddr (t : Taken) : UInt32 := ipAt t.data yiaddrOffset

def Taken.copied (t : Taken) : Nat := if t.len > dhcpReplySize then dhcpReplySize else t.len

def World.last (w : World) : Option Taken := w.client.taken.getLast?

/-- A change of the configuration goes back to an acknowledgement of the current transaction. -/
structure CausedBy (w w' : World) (t : Taken) : Prop where
  mem : t ∈ w.client.taken
  ack : t.isAck
  carries : be32 t.data xidOffset = w.client.xid.toNat
  address : w'.ourIp ≠ w.ourIp → w'.ourIp = t.yiaddr
  gateway : w'.gatewayIp ≠ w.gatewayIp →
    w'.gatewayIp = t.yiaddr ∨ ∃ a, a + 4 ≤ t.len ∧ w'.gatewayIp = ipAt t.data a
  dns : w'.dnsServer ≠ w.dnsServer → ∃ a, a + 4 ≤ t.len ∧ w'.dnsServer = ipAt t.data a

def Changes (w w' : World) : Prop :=
  w'.ourIp ≠ w.ourIp ∨ w'.gatewayIp ≠ w.gatewayIp ∨ w'.dnsServer ≠ w.dnsServer

def LeaseSafe (w : World) (events : List Event) : Prop :=
  ∀ p e, p ++ [e] <+: events → Changes (run w p) (run w (p ++ [e])) →
    ∃ t, CausedBy (run w p) (run w (p ++ [e])) t

/-- What is about to be read of the reply buffer belongs to an acknowledgement. -/
def ReadsAck (w : World) : Prop :=
  match w.place with
  | .setIp => ∀ t, w.last = some t → t.isAck
  | .copyGateway a => ∀ t, w.last = some t → t.isAck ∧ a + 4 ≤ t.copied
  | .copyDns a => ∀ t, w.last = some t → t.isAck ∧ a + 4 ≤ t.copied
  | _ => True

def Place.awaits : Place → Bool
  | .sendRequest _ _ | .waitAck _ | .haveAck => true
  | _ => false

def Place.applies : Place → Bool
  | .checkAck | .setIp | .setGateway | .startGateway | .findGateway _ _ | .copyGateway _ | .startDns
  | .findDns _ _ | .copyDns _ => true
  | _ => false

def Current (w : World) : Prop :=
  ∃ t, w.last = some t ∧ be32 t.data xidOffset = w.client.xid.toNat

structure Sound (w : World) : Prop where
  buffer : ∀ t, w.last = some t →
    dhcpBaseSize ≤ t.len ∧ ∀ k < t.copied, w.client.reply k = t.data k
  pending : w.place.awaits → w.client.pending → Current w
  applies : w.place.applies → Current w
  address : w.place = .setGateway → ∃ t ∈ w.client.taken,
    t.isAck ∧ be32 t.data xidOffset = w.client.xid.toNat ∧ w.ourIp = t.yiaddr

section Steps

variable {w : World}

section

variable (h : Sound w)

include h

theorem Sound.message (data : Mem) (len : Nat) : Sound { w with client := dhcpHandler data len w.client } := by
  unfold dhcpHandler
  split
  · rename_i haccepts
    obtain ⟨hlen, hxid, -⟩ := haccepts
    have hlast : (w.client.taken ++ [Taken.mk data len w.client.xid]).getLast? =
        some (Taken.mk data len w.client.xid) := getLast?_concat
    refine
      { buffer := fun t ht => ?_
        pending := fun _ _ => ⟨_, hlast, hxid⟩
        applies := fun _ => ⟨_, hlast, hxid⟩
        address := fun hplace => ?_ }
    · cases hlast.symm.trans ht
      refine ⟨hlen, fun k hk => ?_⟩
      have hbyte := @blit_add _ 0 _ w.client.reply data hk
      rw [Nat.zero_add] at hbyte
      exact hbyte
    · obtain ⟨t, hmem, ht⟩ := h.address hplace
      exact ⟨t, mem_append_left _ hmem, ht⟩
  · exact h

theorem Sound.word {t : Taken} (hlast : w.last = some t) {a : Nat}
    (ha : a + 4 ≤ t.copied) : ipAt w.client.reply a = ipAt t.data a := by
  refine congrArg UInt32.ofNat (load32_congr fun k hlow hhigh => ?_)
  exact (h.buffer t hlast).2 k (by omega)

theorem Sound.yiaddr {t : Taken} (hlast : w.last = some t) : ipAt w.client.reply yiaddrOffset = t.yiaddr := by
  refine h.word hlast ?_
  have hlen := (h.buffer t hlast).1
  rw [dhcpBaseSize_eq] at hlen
  unfold Taken.copied dhcpReplySize yiaddrOffset
  split
  · decide
  · omega

theorem Sound.idle {w' : World} (hclient : w'.client.taken = w.client.taken)
    (hreply : w'.client.reply = w.client.reply) (hawaits : w'.place.awaits = false)
    (happlies : w'.place.applies = false) : Sound w' :=
  { buffer := fun t ht => by
      rw [hreply]
      refine h.buffer t ?_
      rw [World.last, ← hclient]
      exact ht
    pending := fun hplace => by
      rw [hawaits] at hplace
      cases hplace
    applies := fun hplace => by
      rw [happlies] at hplace
      cases hplace
    address := fun hplace => by
      rw [hplace] at happlies
      cases happlies }

theorem Sound.onwards {w' : World} (hclient : w'.client = w.client)
    (hcurrent : Current w) (hplace : w'.place ≠ .setGateway) : Sound w' := by
  have hlast : w'.last = w.last := by
    rw [World.last, World.last, hclient]
  have hcurrent' : Current w' := by
    rw [Current, hlast, hclient]
    exact hcurrent
  refine
    { buffer := fun t ht => ?_
      pending := fun _ _ => hcurrent'
      applies := fun _ => hcurrent'
      address := fun h => absurd h hplace }
  rw [hlast] at ht
  rw [hclient]
  exact h.buffer t ht

theorem Sound.waits {w' : World} (hclient : w'.client = w.client)
    (hawaits : w.place.awaits) (happlies : w'.place.applies = false) : Sound w' := by
  have hlast : w'.last = w.last := by
    rw [World.last, World.last, hclient]
  refine
    { buffer := fun t ht => ?_
      pending := fun _ hpending => ?_
      applies := fun hplace => ?_
      address := fun hplace => ?_ }
  · rw [hclient]
    rw [hlast] at ht
    exact h.buffer t ht
  · rw [hclient] at hpending
    rw [Current, hlast, hclient]
    exact h.pending hawaits hpending
  · rw [happlies] at hplace
    cases hplace
  · rw [hplace] at happlies
    cases happlies

theorem Sound.request (offered server : UInt32) : Sound (w.clear (.sendRequest offered server)) :=
  { buffer := h.buffer
    pending := fun _ hpending => by cases hpending
    applies := fun hplace => by cases hplace
    address := fun hplace => by cases hplace }

omit h in
theorem walks_cases (P : World → Prop) {tag : UInt8} {len pos : Nat} {again : Nat → Place}
    {found : Nat → World} {absent : World} (hagain : ∀ next, P (w.at (again next)))
    (hfound : ∀ offset, P (found offset)) (habsent : P absent) :
    P (w.walks tag len pos again found absent) := by
  unfold World.walks
  split
  · exact hagain _
  · exact hfound _
  · exact habsent
  · exact habsent

theorem Sound.setIp (hcurrent : Current w) (hack : ∀ t, w.last = some t → t.isAck) :
    Sound { w with
      ourIp := ipAt w.client.reply yiaddrOffset
      place := .setGateway } := by
  refine
    { buffer := h.buffer
      pending := fun hplace => by cases hplace
      applies := fun _ => hcurrent
      address := fun _ => ?_ }
  obtain ⟨t, hlast, hcarries⟩ := hcurrent
  exact ⟨t, mem_of_getLast? hlast, hack t hlast, hcarries, h.yiaddr hlast⟩

omit h in
theorem go_taken (w : World) : (go w).client.taken = w.client.taken := by
  unfold Dhcp.go
  cases w.place with
  | head | waitOffer timeout | haveOffer | waitAck timeout | haveAck | checkAck =>
    dsimp only
    split
    · rfl
    · rfl
  | serverId offered len pos =>
    refine walks_cases (·.client.taken = _) (fun next => rfl) (fun sid => ?_) rfl
    split
    · rfl
    · rfl
  | findGateway len pos | findDns len pos =>
    exact walks_cases (·.client.taken = _) (fun next => rfl) (fun sid => rfl) rfl
  | _ => rfl

theorem Sound.go (hreads : ReadsAck w) : Sound (go w) := by
  unfold Dhcp.go
  cases hplace : w.place with
  | head =>
    dsimp only
    split
    · exact h.idle rfl rfl rfl rfl
    · exact h.idle rfl rfl rfl rfl
  | discover => exact h.idle rfl rfl rfl rfl
  | sendDiscover => exact h.idle rfl rfl rfl rfl
  | waitOffer timeout =>
    dsimp only
    split
    · exact h.idle rfl rfl rfl rfl
    · exact h.idle rfl rfl rfl rfl
  | haveOffer =>
    dsimp only
    split
    · exact h.idle rfl rfl rfl rfl
    · exact h.idle rfl rfl rfl rfl
  | takeOffer => exact h.idle rfl rfl rfl rfl
  | offeredIp => exact h.idle rfl rfl rfl rfl
  | serverId offered len pos =>
    refine walks_cases Sound (fun next => h.idle rfl rfl rfl rfl) (fun sid => ?_) (h.idle rfl rfl rfl rfl)
    split
    · exact h.idle rfl rfl rfl rfl
    · exact h.idle rfl rfl rfl rfl
  | copyServer offered sid => exact h.idle rfl rfl rfl rfl
  | request offered server => exact h.request offered server
  | sendRequest offered server => exact h.waits rfl (by rw [hplace]; rfl) rfl
  | waitAck timeout =>
    dsimp only
    split
    · exact h.waits rfl (by rw [hplace]; rfl) rfl
    · exact h.waits rfl (by rw [hplace]; rfl) rfl
  | haveAck =>
    dsimp only
    split
    · rename_i hpending
      exact h.onwards rfl (h.pending (by rw [hplace]; rfl) hpending) Place.noConfusion
    · exact h.idle rfl rfl rfl rfl
  | checkAck =>
    dsimp only
    split
    · exact h.idle rfl rfl rfl rfl
    · exact h.onwards rfl (h.applies (by rw [hplace]; rfl)) Place.noConfusion
  | setIp =>
    rw [ReadsAck, hplace] at hreads
    exact h.setIp (h.applies (by rw [hplace]; rfl)) hreads
  | setGateway => exact h.onwards rfl (h.applies (by rw [hplace]; rfl)) Place.noConfusion
  | startGateway => exact h.onwards rfl (h.applies (by rw [hplace]; rfl)) Place.noConfusion
  | findGateway len pos =>
    have hcurrent := h.applies (by rw [hplace]; rfl)
    exact walks_cases Sound (fun next => h.onwards rfl hcurrent Place.noConfusion)
      (fun gw => h.onwards rfl hcurrent Place.noConfusion)
      (h.onwards rfl hcurrent Place.noConfusion)
  | copyGateway gw => exact h.onwards rfl (h.applies (by rw [hplace]; rfl)) Place.noConfusion
  | startDns => exact h.onwards rfl (h.applies (by rw [hplace]; rfl)) Place.noConfusion
  | findDns len pos =>
    have hcurrent := h.applies (by rw [hplace]; rfl)
    exact walks_cases Sound (fun next => h.onwards rfl hcurrent Place.noConfusion)
      (fun dns => h.onwards rfl hcurrent Place.noConfusion) (h.idle rfl rfl rfl rfl)
  | copyDns dns => exact h.idle rfl rfl rfl rfl
  | finish result => exact h.idle rfl rfl rfl rfl
  | returned result => exact h

end

def Place.sets : Place → Bool
  | .setIp | .setGateway | .copyGateway _ | .copyDns _ => true
  | _ => false

structure Keeps (w w' : World) : Prop where
  ourIp : w'.ourIp = w.ourIp
  gatewayIp : w'.gatewayIp = w.gatewayIp
  dnsServer : w'.dnsServer = w.dnsServer

theorem Keeps.not_changes {w' : World} (h : Keeps w w') : ¬ Changes w w' := by
  rintro (hne | hne | hne)
  · exact hne h.ourIp
  · exact hne h.gatewayIp
  · exact hne h.dnsServer

theorem go_keeps (h : w.place.sets = false) : Keeps w (go w) := by
  have hsame : Keeps w w := ⟨rfl, rfl, rfl⟩
  unfold Dhcp.go
  cases hplace : w.place with
  | setIp | setGateway | copyGateway gw | copyDns dns =>
    rw [hplace] at h
    cases h
  | head | waitOffer timeout | haveOffer | waitAck timeout | haveAck | checkAck =>
    dsimp only
    split
    · exact ⟨rfl, rfl, rfl⟩
    · exact ⟨rfl, rfl, rfl⟩
  | serverId offered len pos =>
    refine walks_cases (Keeps w) (fun next => ⟨rfl, rfl, rfl⟩) (fun sid => ?_) ⟨rfl, rfl, rfl⟩
    split
    · exact ⟨rfl, rfl, rfl⟩
    · exact ⟨rfl, rfl, rfl⟩
  | findGateway len pos | findDns len pos =>
    exact walks_cases (Keeps w) (fun next => ⟨rfl, rfl, rfl⟩) (fun sid => ⟨rfl, rfl, rfl⟩) ⟨rfl, rfl, rfl⟩
  | discover | sendDiscover | takeOffer | offeredIp | copyServer offered sid
  | request offered server | sendRequest offered server | startGateway | startDns | finish result =>
    exact ⟨rfl, rfl, rfl⟩
  | returned result => exact hsame

theorem Taken.copied_le (t : Taken) : t.copied ≤ t.len := by
  unfold Taken.copied
  split
  · rename_i hlong
    exact hlong.le
  · exact le_rfl

theorem Sound.changes (h : Sound w) (hreads : ReadsAck w) (hchanges : Changes w (Dhcp.go w)) :
    ∃ t, CausedBy w (Dhcp.go w) t := by
  cases hsets : w.place.sets with
  | false => exact absurd hchanges (go_keeps hsets).not_changes
  | true =>
    have hcurrent : Current w := h.applies (by
      revert hsets
      cases w.place with
      | setIp | setGateway | copyGateway gw | copyDns dns => exact fun _ => rfl
      | _ => exact fun h => by cases h)
    obtain ⟨last, hlast, hcarries⟩ := hcurrent
    have hmem := mem_of_getLast? hlast
    unfold Dhcp.go
    cases hplace : w.place with
    | setIp =>
      rw [ReadsAck, hplace] at hreads
      exact ⟨last,
        { mem := hmem
          ack := hreads last hlast
          carries := hcarries
          address := fun _ => h.yiaddr hlast
          gateway := fun hne => absurd rfl hne
          dns := fun hne => absurd rfl hne }⟩
    | setGateway =>
      obtain ⟨t, ht, hack, hcarries', haddress⟩ := h.address hplace
      exact ⟨t,
        { mem := ht
          ack := hack
          carries := hcarries'
          address := fun hne => absurd rfl hne
          gateway := fun _ => .inl haddress
          dns := fun hne => absurd rfl hne }⟩
    | copyGateway gw =>
      rw [ReadsAck, hplace] at hreads
      obtain ⟨hack, hreach⟩ := hreads last hlast
      exact ⟨last,
        { mem := hmem
          ack := hack
          carries := hcarries
          address := fun hne => absurd rfl hne
          gateway := fun _ =>
            .inr ⟨gw, hreach.trans last.copied_le, h.word hlast hreach⟩
          dns := fun hne => absurd rfl hne }⟩
    | copyDns dns =>
      rw [ReadsAck, hplace] at hreads
      obtain ⟨hack, hreach⟩ := hreads last hlast
      exact ⟨last,
        { mem := hmem
          ack := hack
          carries := hcarries
          address := fun hne => absurd rfl hne
          gateway := fun hne => absurd rfl hne
          dns := fun _ => ⟨dns, hreach.trans last.copied_le, h.word hlast hreach⟩ }⟩
    | _ =>
      rw [hplace] at hsets
      cases hsets

end Steps

section Runs

variable {w : World} {events : List Event}

theorem run_append (w : World) (p : List Event) (e : Event) : run w (p ++ [e]) = step (run w p) e := by
  rw [run, foldl_append]
  rfl

theorem sound_start (ticks : UInt32) (w : World) : Sound (start ticks w) :=
  { buffer := fun t ht => by cases ht
    pending := fun hplace => by cases hplace
    applies := fun hplace => by cases hplace
    address := fun hplace => by cases hplace }

def AcksOnly (w : World) (events : List Event) : Prop :=
  ∀ p, p ++ [.go] <+: events → ReadsAck (run w p)

theorem AcksOnly.before {p : List Event} (h : AcksOnly w events) (hp : p <+: events) : AcksOnly w p :=
  fun q hq => h q (hq.trans hp)

theorem step_message (w : World) (data : Mem) (len : Nat) : step w (.message data len) = w ∨
    step w (.message data len) = { w with client := dhcpHandler data len w.client } := by
  unfold step
  dsimp only
  split
  · exact .inl rfl
  · exact .inr rfl

theorem Sound.run (h : Sound w) (hacks : AcksOnly w events) : Sound (run w events) := by
  induction events using List.reverseRecOn with
  | nil => exact h
  | append_singleton p e ih =>
    have hp := ih (hacks.before (List.prefix_append _ _))
    rw [run_append]
    cases e with
    | message data len =>
      rcases step_message (Dhcp.run w p) data len with heq | heq
      · rw [heq]
        exact hp
      · rw [heq]
        exact hp.message data len
    | go => exact hp.go (hacks p (prefix_refl _))

theorem run_taken {t : Taken} (ht : t ∈ (run w events).client.taken) :
    t ∈ w.client.taken ∨ Event.message t.data t.len ∈ events := by
  induction events using List.reverseRecOn with
  | nil => exact .inl ht
  | append_singleton p e ih =>
    have hold (ht : t ∈ (run w p).client.taken) :
        t ∈ w.client.taken ∨ Event.message t.data t.len ∈ p ++ [e] :=
      (ih ht).imp_right fun h => mem_append_left _ h
    rw [run_append] at ht
    cases e with
    | message data len =>
      rcases step_message (run w p) data len with heq | heq
      · rw [heq] at ht
        exact hold ht
      · rw [heq] at ht
        unfold dhcpHandler at ht
        split at ht
        · rcases mem_append.mp ht with ht | ht
          · exact hold ht
          · cases mem_singleton.mp ht
            exact .inr (mem_append_right _ (mem_singleton.mpr rfl))
        · exact hold ht
    | go =>
      refine hold ?_
      rw [← go_taken (run w p)]
      exact ht

/-- While only acknowledgements are read, the configuration changes only because of them. -/
theorem leaseSafe_of_acksOnly (ticks : UInt32) (w : World) (events : List Event)
    (hacks : AcksOnly (start ticks w) events) : LeaseSafe (start ticks w) events := by
  intro p e hp hchanges
  have hsound := (sound_start ticks w).run (hacks.before ((List.prefix_append _ _).trans hp))
  rw [run_append] at hchanges ⊢
  cases e with
  | message data len =>
    rcases step_message (run (start ticks w) p) data len with heq | heq
    · rw [heq] at hchanges
      exact absurd hchanges (Keeps.not_changes ⟨rfl, rfl, rfl⟩)
    · rw [heq] at hchanges
      exact absurd hchanges (Keeps.not_changes ⟨rfl, rfl, rfl⟩)
  | go => exact hsound.changes (hacks p hp) hchanges

/-- A message of a server, for transaction 8, whose first option is its type. The server identifier
stands where the client finds it. -/
def replyOf (type : UInt8) (rest : List UInt8) : List UInt8 :=
  [2, 1, 6, 0, 0, 0, 0, 8] ++ List.replicate 8 0 ++ [10, 0, 2, 99] ++ List.replicate 216 0 ++
    [0x63, 0x82, 0x53, 0x63, 53, 1, type, 54, 4, 10, 0, 2, 2] ++ List.replicate 119 0 ++
    [54, 4, 10, 0, 2, 2, 255] ++ rest

def arrives (bytes : List UInt8) : Event := .message (memOf bytes) bytes.length

theorem hasType_iff {type v : UInt8} {rest : List UInt8} :
    HasOption (dhcpOptMsgType :: 1 :: v :: rest) dhcpOptMsgType [type] ↔ v = type := by
  have hfinds : Finds dhcpOptMsgType (dhcpOptMsgType :: 1 :: v :: rest) 2 :=
    .here 1 (v :: rest) (by decide) (by decide) (Nat.succ_le_succ (Nat.zero_le _))
  refine ⟨?_, ?_⟩
  · rintro ⟨n, hn, -, hvalue⟩
    cases hfinds.unique hn
    injection hvalue
  · rintro rfl
    exact ⟨2, hfinds, rfl, rfl⟩

theorem isAck_replyOf {type : UInt8} {rest : List UInt8} {t : Taken}
    (hdata : t.data = memOf (replyOf type rest)) (hlen : t.len = (replyOf type rest).length) :
    t.isAck ↔ type = dhcpAck := by
  unfold Taken.isAck Taken.options
  rw [hdata, hlen, bytesOf_memOf]
  exact hasType_iff

def trialWorld : World :=
  { client :=
      { pending := false
        xid := 7
        reply := fun _ => 0
        replyLen := 0
        taken := [] }
    ourIp := trialHost.ourIp
    gatewayIp := trialHost.gatewayIp
    dnsServer := 0
    attempt := 0
    place := .head }

def exchange (answer : List UInt8) : List Event :=
  List.replicate 3 .go ++ [arrives (replyOf dhcpOffer [])] ++ List.replicate 9 .go ++
    [arrives answer] ++ List.replicate 4 .go

theorem mem_exchange {answer : List UInt8} {t : Taken} (h : Event.message t.data t.len ∈ exchange answer) :
    (t.data = memOf (replyOf dhcpOffer []) ∧ t.len = (replyOf dhcpOffer []).length) ∨
      (t.data = memOf answer ∧ t.len = answer.length) := by
  simp only [exchange, arrives, mem_append, mem_replicate, mem_singleton, reduceCtorEq,
    and_false, false_or, or_false, Event.message.injEq] at h
  exact h

theorem run_exchange_taken {answer : List UInt8} {p : List Event} {t : Taken}
    (hp : p <+: exchange answer) (ht : t ∈ (run (start 0 trialWorld) p).client.taken) :
    (t.data = memOf (replyOf dhcpOffer []) ∧ t.len = (replyOf dhcpOffer []).length) ∨
      (t.data = memOf answer ∧ t.len = answer.length) := by
  rcases run_taken ht with ht | ht
  · cases ht
  · exact mem_exchange (hp.subset ht)

theorem readsAck_of_not_sets (h : w.place.sets = false) : ReadsAck w := by
  unfold ReadsAck
  split
  · rename_i hplace
    rw [hplace] at h
    cases h
  · rename_i hplace
    rw [hplace] at h
    cases h
  · rename_i hplace
    rw [hplace] at h
    cases h
  · trivial

theorem exchange_places : ∀ n < 17,
    (run (start 0 trialWorld) ((exchange (replyOf dhcpAck [0])).take n)).place.sets = false := by
  decide +kernel

theorem exchange_acksOnly : AcksOnly (start 0 trialWorld) (exchange (replyOf dhcpAck [0])) := by
  intro p hp
  have hp' : p <+: exchange (replyOf dhcpAck [0]) := (List.prefix_append _ _).trans hp
  have hlt : p.length < 18 := by
    have hlength : (exchange (replyOf dhcpAck [0])).length = 18 := by decide
    rw [← hlength]
    refine Nat.lt_of_lt_of_le ?_ hp.length_le
    rw [length_append, length_singleton]
    exact Nat.lt_succ_self _
  have htake : p = (exchange (replyOf dhcpAck [0])).take p.length := prefix_iff_eq_take.mp hp'
  rcases Nat.lt_or_eq_of_le (Nat.le_of_lt_succ hlt) with hn | hn
  · rw [htake]
    exact readsAck_of_not_sets (exchange_places _ hn)
  · have hplace : (run (start 0 trialWorld) ((exchange (replyOf dhcpAck [0])).take 17)).place = .setIp := by
      decide +kernel
    have hlen : (run (start 0 trialWorld) ((exchange (replyOf dhcpAck [0])).take 17)).last.map (·.len) =
        some 376 := by
      decide +kernel
    rw [hn] at htake
    rw [← htake] at hplace hlen
    rw [ReadsAck, hplace]
    intro t ht
    rw [ht] at hlen
    rcases run_exchange_taken hp' (mem_of_getLast? ht) with ⟨-, hother⟩ | ⟨hdata, hlen'⟩
    · have hoffer : (replyOf dhcpOffer []).length = 375 := by decide +kernel
      rw [Option.map_some, hother, hoffer] at hlen
      cases hlen
    · exact (isAck_replyOf hdata hlen').mpr rfl

theorem leaseSafe_exchange : LeaseSafe (start 0 trialWorld) (exchange (replyOf dhcpAck [0])) :=
  leaseSafe_of_acksOnly 0 trialWorld _ exchange_acksOnly

/-- The offer arrives a second time. -/
theorem offer_sets_address : ¬ ∀ ticks w events, LeaseSafe (start ticks w) events := by
  intro h
  have hset : (run (start 0 trialWorld) ((exchange (replyOf dhcpOffer [])).take 17 ++ [.go])).ourIp ≠
      (run (start 0 trialWorld) ((exchange (replyOf dhcpOffer [])).take 17)).ourIp := by
    decide +kernel
  have hp : (exchange (replyOf dhcpOffer [])).take 17 ++ [.go] <+:
    exchange (replyOf dhcpOffer []) := prefix_refl _
  obtain ⟨t, ht⟩ := h 0 trialWorld (exchange (replyOf dhcpOffer [])) _ _ hp (.inl hset)
  have hpre := take_prefix 17 (exchange (replyOf dhcpOffer []))
  have hoffer : t.data = memOf (replyOf dhcpOffer []) ∧ t.len = (replyOf dhcpOffer []).length :=
    (run_exchange_taken hpre ht.mem).elim id id
  exact absurd ((isAck_replyOf hoffer.1 hoffer.2).mp ht.ack) (by decide)

end Runs

end JexOs.Dhcp
