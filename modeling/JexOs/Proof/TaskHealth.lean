import JexOs.Proof.TaskOps

/-!
# What every call keeps

The invariant of the task system is about the tasks of the queue as a set, so it does not depend on where the ring
is opened.
-/

namespace JexOs.Tasks

open Paging (Machine)
open Kstack List Function

def Placed (t : Task) : Prop := t.kstack = 0 ∨ t.id ≠ 128 ∧ t.kstack = stackBase t.id

/-- What holds of the tasks `q` in the queue of `k`; `kt` is the frame of the stack table. -/
structure Healthy (kt : Nat) (k : Kernel) (q : List Entry) : Prop where
  current : ∃ p ∈ q, p.1 = k.currentTask
  ids : (q.map fun p => p.2.id).Nodup
  bound : ∀ p ∈ q, p.2.id < k.nextPid
  init : ∃ p ∈ q, p.2.id = 1 ∧ p.2.state ≠ .zombie ∧ p.2.signalPending = 0
  parents : ∀ p ∈ q, p.2.parentPid < p.2.id
  placed : ∀ p ∈ q, Placed p.2
  sees : ∀ p ∈ q, Sees k.machine kt (p.2.pageDirectory / 4096)
  kernel : Sees k.machine kt k.kernelDirectory
  table : StackTable k.machine kt
  count : 2 ≤ k.nextPid ∧ k.nextPid ≤ 256

section Health

variable {kt : Nat} {k k' : Kernel} {q q' : List Entry}

variable (h : Healthy kt k q)

include h

theorem Healthy.perm (hperm : q.Perm q') : Healthy kt k q' :=
  { current := by
      obtain ⟨p, hp, heq⟩ := h.current
      exact ⟨p, hperm.mem_iff.mp hp, heq⟩
    ids := h.ids.perm (hperm.map _)
    bound := fun p hp => h.bound p (hperm.mem_iff.mpr hp)
    init := by
      obtain ⟨p, hp, hinit⟩ := h.init
      exact ⟨p, hperm.mem_iff.mp hp, hinit⟩
    parents := fun p hp => h.parents p (hperm.mem_iff.mpr hp)
    placed := fun p hp => h.placed p (hperm.mem_iff.mpr hp)
    sees := fun p hp => h.sees p (hperm.mem_iff.mpr hp)
    kernel := h.kernel
    table := h.table
    count := h.count }

theorem Healthy.id_pos {p : Entry} (hp : p ∈ q) : 1 ≤ p.2.id := by
  have hparent := h.parents p hp
  omega

theorem Healthy.stackOk {p : Entry} (hp : p ∈ q) : StackOk p.2 := by
  intro hnone
  have hpos := h.id_pos hp
  have hlt := h.bound p hp
  have hcount := h.count.2
  obtain hzero | ⟨hne, -⟩ := h.placed p hp
  · exact absurd hzero hnone
  · exact (stacked_iff hpos (by omega)).mpr hne

theorem Healthy.memory {m : Machine} (hm : KeepsTable kt k.machine m) : Healthy kt { k with machine := m } q :=
  { h with
    sees := fun p hp => hm.sees _ (h.sees p hp)
    kernel := hm.sees _ h.kernel
    table := hm.table }

theorem Healthy.eq_of_id {p p' : Entry} (hp : p ∈ q) (hp' : p' ∈ q) (heq : p.2.id = p'.2.id) : p = p' :=
  inj_on_of_nodup_map h.ids hp hp' heq

structure Alike (p p' : Entry) : Prop where
  addr : p'.1 = p.1
  id : p'.2.id = p.2.id
  pageDirectory : p'.2.pageDirectory = p.2.pageDirectory
  kstack : p'.2.kstack = p.2.kstack
  parent : p.2.parentPid < p.2.id → p'.2.parentPid < p.2.id
  init : p.2.id = 1 → p.2.state ≠ .zombie → p.2.signalPending = 0 →
    p'.2.state ≠ .zombie ∧ p'.2.signalPending = 0

omit h in
theorem Alike.refl (p : Entry) : Alike p p :=
  ⟨rfl, rfl, rfl, rfl, fun hparent => hparent, fun _ hlive hnone => ⟨hlive, hnone⟩⟩

theorem Healthy.map {g : Entry → Entry} (hg : ∀ p ∈ q, Alike p (g p)) : Healthy kt k (q.map g) :=
  { current := by
      obtain ⟨p, hp, heq⟩ := h.current
      exact ⟨g p, mem_map_of_mem hp, (hg p hp).addr.trans heq⟩
    ids := by
      have hsame : q.map ((fun p : Entry => p.2.id) ∘ g) = q.map fun p => p.2.id :=
        map_congr_left fun p hp => (hg p hp).id
      rw [map_map, hsame]
      exact h.ids
    bound := fun p hp => by
      obtain ⟨x, hx, rfl⟩ := mem_map.mp hp
      rw [(hg x hx).id]
      exact h.bound x hx
    init := by
      obtain ⟨p, hp, hone, hlive, hpending⟩ := h.init
      exact ⟨g p, mem_map_of_mem hp, (hg p hp).id.trans hone, (hg p hp).init hone hlive hpending⟩
    parents := fun p hp => by
      obtain ⟨x, hx, rfl⟩ := mem_map.mp hp
      rw [(hg x hx).id]
      exact (hg x hx).parent (h.parents x hx)
    placed := fun p hp => by
      obtain ⟨x, hx, rfl⟩ := mem_map.mp hp
      unfold Placed
      rw [(hg x hx).id, (hg x hx).kstack]
      exact h.placed x hx
    sees := fun p hp => by
      obtain ⟨x, hx, rfl⟩ := mem_map.mp hp
      rw [(hg x hx).pageDirectory]
      exact h.sees x hx
    kernel := h.kernel
    table := h.table
    count := h.count }

omit h in
theorem Healthy.update {pre post : List Entry} {a : Nat} {t t' : Task}
    (h : Healthy kt k (pre ++ (a, t) :: post)) (halike : Alike (a, t) (a, t'))
    (hapart : ∀ p ∈ pre ++ post, p.1 ≠ a) : Healthy kt k (pre ++ (a, t') :: post) := by
  have hmap := h.map (g := fun p => if p.1 = a then (a, t') else p) fun p hp => by
    by_cases heq : p.1 = a
    · rw [if_pos heq]
      obtain rfl : p = (a, t) := by
        rcases mem_append.mp hp with hp | hp
        · exact absurd heq (hapart p (mem_append_left _ hp))
        · rcases mem_cons.mp hp with rfl | hp
          · rfl
          · exact absurd heq (hapart p (mem_append_right _ hp))
      exact halike
    · rw [if_neg heq]
      exact Alike.refl p
  have hsame : ∀ l : List Entry, (∀ p ∈ l, p.1 ≠ a) →
      l.map (fun p => if p.1 = a then (a, t') else p) = l := by
    intro l hl
    exact (map_congr_left fun p hp => if_neg (hl p hp)).trans (map_id l)
  rw [map_append, map_cons, if_pos rfl, hsame pre fun p hp => hapart p (by simp [hp]),
    hsame post fun p hp => hapart p (by simp [hp])] at hmap
  exact hmap

theorem Healthy.transfer (hm : KeepsTable kt k.machine k'.machine)
    (hdir : k'.kernelDirectory = k.kernelDirectory) (hpid : k'.nextPid = k.nextPid)
    (hcur : ∃ p ∈ q, p.1 = k'.currentTask) : Healthy kt k' q :=
  { current := hcur
    ids := h.ids
    bound := by
      rw [hpid]
      exact h.bound
    init := h.init
    parents := h.parents
    placed := h.placed
    sees := fun p hp => hm.sees _ (h.sees p hp)
    kernel := by
      rw [hdir]
      exact hm.sees _ h.kernel
    table := hm.table
    count := by
      rw [hpid]
      exact h.count }

theorem Healthy.setNode (a : Nat) (n : Node) : Healthy kt (k.setNode a n) q :=
  h.transfer (KeepsTable.refl h.table) rfl rfl h.current

theorem Healthy.sublist (hsub : q'.Sublist q)
    (hcur : ∃ p ∈ q', p.1 = k.currentTask) (hinit : ∀ p ∈ q, p.2.id = 1 → p ∈ q') : Healthy kt k q' :=
  { current := hcur
    ids := h.ids.sublist (hsub.map _)
    bound := fun p hp => h.bound p (hsub.subset hp)
    init := by
      obtain ⟨p, hp, hone, hrest⟩ := h.init
      exact ⟨p, hinit p hp hone, hone, hrest⟩
    parents := fun p hp => h.parents p (hsub.subset hp)
    placed := fun p hp => h.placed p (hsub.subset hp)
    sees := fun p hp => h.sees p (hsub.subset hp)
    kernel := h.kernel
    table := h.table
    count := h.count }

theorem Healthy.redirect {d : Nat} (hd : Sees k.machine kt d) :
    Healthy kt { k with machine := { k.machine with dir := d } } q :=
  { current := h.current
    ids := h.ids
    bound := h.bound
    init := h.init
    parents := h.parents
    placed := h.placed
    sees := fun p hp => ⟨(h.sees p hp).apart, (h.sees p hp).window, (h.sees p hp).table⟩
    kernel := ⟨h.kernel.apart, h.kernel.window, h.kernel.table⟩
    table := ⟨h.table.active, ⟨hd.apart, hd.window, hd.table⟩, h.table.self, h.table.gap⟩
    count := h.count }

end Health

/-- The tasks in the order in which the scheduler meets them: those behind the running task first,
the running task last. -/
def Upcoming (k : Kernel) (r : List Entry) : Prop :=
  ∃ c rest, r = rest ++ [c] ∧ Ring k (c :: rest) ∧ k.currentTask = c.1

/-- What the scheduler makes of them: the zombies `zs` are passed over, the tasks `dead` are
terminated by their signals, and `b` is resumed. -/
structure Lineup (r zs dead : List Entry) (b : Entry) (rest : List Entry) : Prop where
  eq : r = zs ++ (dead ++ b :: rest)
  zombie : ∀ p ∈ zs, p.2.state = .zombie
  live : ∀ p ∈ (dead ++ [b]).head?, p.2.state ≠ .zombie
  fatal : ∀ p ∈ dead, Fatal p.2
  safe : ¬ Fatal b.2

section Switch

variable {kt : Nat} {k k' : Kernel} {q r zs dead rest : List Entry} {b : Entry}

theorem not_fatal_of_none {t : Task} (hnone : t.signalPending = 0) : ¬ Fatal t := by
  unfold Fatal deliverSignals
  rw [hnone]
  simp

theorem upcoming_of_mem (hq : Queued k q) (hmem : ∃ p ∈ q, p.1 = k.currentTask) :
    ∃ r, Upcoming k r ∧ r.Perm q := by
  obtain ⟨c, hc, hcur⟩ := hmem
  obtain ⟨pre, post, rfl⟩ := append_of_mem hc
  refine ⟨(post ++ pre) ++ [c], ⟨c, post ++ pre, rfl, ⟨pre, c :: post, hq, rfl⟩, hcur.symm⟩, ?_⟩
  refine perm_append_comm.trans ?_
  rw [singleton_append]
  exact (List.Perm.cons c perm_append_comm).trans perm_middle.symm

theorem exists_upcoming (hq : Queued k q) (h : Healthy kt k q) : ∃ r, Upcoming k r ∧ r.Perm q :=
  upcoming_of_mem hq h.current

theorem Upcoming.perm (hr : Upcoming k r) (hq : Queued k q) : r.Perm q := by
  obtain ⟨c, rest, rfl, ⟨pre, post, hq', heq⟩, -⟩ := hr
  rw [hq.unique hq']
  exact perm_append_comm.trans ((singleton_append (l := rest)) ▸ heq ▸ perm_append_comm)

theorem Upcoming.queued (hr : Upcoming k r) : ∃ q, Queued k q ∧ r.Perm q := by
  obtain ⟨c, rest, rfl, ⟨pre, post, hq, heq⟩, -⟩ := hr
  have hopen : (rest ++ [c]).Perm (c :: rest) := perm_append_singleton c rest
  exact ⟨_, hq, hopen.trans (heq ▸ perm_append_comm)⟩

theorem exists_first {α : Type} {P : α → Prop} {l : List α} (h : ∃ x ∈ l, ¬ P x) :
    ∃ pre x post, l = pre ++ x :: post ∧ (∀ y ∈ pre, P y) ∧ ¬ P x := by
  induction l with
  | nil =>
    obtain ⟨x, hx, -⟩ := h
    cases hx
  | cons y l ih =>
    by_cases hy : P y
    · have htail : ∃ x ∈ l, ¬ P x := by
        obtain ⟨x, hx, hnot⟩ := h
        rcases mem_cons.mp hx with rfl | hx
        · exact absurd hy hnot
        · exact ⟨x, hx, hnot⟩
      obtain ⟨pre, x, post, rfl, hpre, hx⟩ := ih htail
      refine ⟨y :: pre, x, post, rfl, fun z hz => ?_, hx⟩
      rcases mem_cons.mp hz with rfl | hz
      · exact hy
      · exact hpre z hz
    · exact ⟨[], y, l, rfl, by simp, hy⟩

theorem exists_lineup (hsafe : ∃ p ∈ r, p.2.state ≠ .zombie ∧ ¬ Fatal p.2) :
    ∃ zs dead b rest, Lineup r zs dead b rest := by
  obtain ⟨p, hp, hlive, hnot⟩ := hsafe
  obtain ⟨zs, x, tail, rfl, hzs, hx⟩ := exists_first (P := fun p : Entry => p.2.state = .zombie) ⟨p, hp, hlive⟩
  have hp' : p ∈ x :: tail := by
    rcases mem_append.mp hp with hp | hp
    · exact absurd (hzs p hp) hlive
    · exact hp
  obtain ⟨dead, b, rest, heq, hdead, hb⟩ := exists_first (P := fun p : Entry => Fatal p.2) ⟨p, hp', hnot⟩
  refine ⟨zs, dead, b, rest,
    { eq := by rw [heq]
      zombie := hzs
      live := fun y hy => ?_
      fatal := hdead
      safe := hb }⟩
  have hfirst : y = x := by
    cases dead with
    | nil =>
      obtain ⟨rfl, -⟩ := cons.inj heq
      simpa using hy.symm
    | cons z dead =>
      obtain ⟨rfl, -⟩ := cons.inj heq
      simpa using hy.symm
  exact hfirst ▸ hx

structure Switched (kt : Nat) (k k' : Kernel) (dead : List Entry) (b : Entry) (rest : List Entry) :
    Prop where
  ring : Ring k' ((b.1, delivered b.2) :: rest)
  healthy : Healthy kt k' ((b.1, delivered b.2) :: rest)
  currentTask : k'.currentTask = b.1
  nextPid : k'.nextPid = k.nextPid
  unlinked : ∀ p ∈ dead, ∃ n, k'.Cell p.1 (delivered p.2) n
  other : ∀ a, (∀ p ∈ dead ++ b :: rest, p.1 ≠ a) → k'.nodes a = k.nodes a

theorem Lineup.init_mem (hl : Lineup r zs dead b rest) {p : Entry} (hp : p ∈ r)
    (hlive : p.2.state ≠ .zombie) (hnone : p.2.signalPending = 0) : p ∈ b :: rest := by
  rw [hl.eq] at hp
  rcases mem_append.mp hp with hp | hp
  · exact absurd (hl.zombie p hp) hlive
  · rcases mem_append.mp hp with hp | hp
    · exact absurd (hl.fatal p hp) (not_fatal_of_none hnone)
    · exact hp

theorem Lineup.not_running {c : Entry} {others : List Entry} (hl : Lineup (others ++ [c]) zs dead b rest)
    (hring : Ring k (c :: others)) : ∀ p ∈ zs, p.1 ≠ c.1 := by
  have hnodup : ((zs ++ (dead ++ b :: rest)).map Prod.fst).Nodup := hl.eq ▸ hring.rotate.nodup
  intro p hp heq
  rw [map_append, nodup_append] at hnodup
  have hc : c ∈ dead ++ b :: rest := by
    have hlast := congrArg List.getLast? hl.eq
    rw [getLast?_concat, getLast?_append_of_ne_nil _ (by simp)] at hlast
    exact mem_of_getLast? hlast.symm
  exact hnodup.2.2 p.1 (mem_map_of_mem hp) c.1 (mem_map_of_mem hc) heq

theorem Alike.delivered {p : Entry} : Alike p (p.1, delivered p.2) := by
  refine ⟨rfl, ?_, delivered_pageDirectory p.2, ?_, ?_, fun _ hlive hnone => ?_⟩
  · rw [delivered_eq]
  · rw [delivered_eq]
  · rw [delivered_eq]
    exact fun hparent => hparent
  · have hsame : Tasks.delivered p.2 = p.2 := by
      unfold Tasks.delivered deliverSignals
      rw [hnone]
      simp
    rw [hsame]
    exact ⟨hlive, hnone⟩

theorem switch_spec (h : Healthy kt k r) (hr : Upcoming k r) (hl : Lineup r zs dead b rest)
    {fuel : Nat} (hfuel : r.length < fuel) : ∃ k₁ k', k₁.currentTask = headOf (dead ++ b :: (rest ++ zs)) ∧
      Ring k₁ (dead ++ b :: (rest ++ zs)) ∧ k₁ = { k with currentTask := k₁.currentTask } ∧
      Skips fuel k k₁.currentTask ∧ taskSwitch fuel k = .ok k' ∧
      Switched kt k k' dead b (rest ++ zs) := by
  obtain ⟨c, others, rfl, hring, hcur⟩ := hr
  obtain ⟨i, hi, hid, hlive, hnone⟩ := h.init
  obtain ⟨k₁, k₂, hcur₁, hring₁, hsame₁, hskips, -, hdone, hrun⟩ := taskSwitch_spec hring hcur hl.eq
    hl.zombie (hl.not_running hring) hl.live hl.fatal hl.safe
      (show others.length + 1 < fuel by simpa using hfuel)
  have hperm : (others ++ [c]).Perm (dead ++ b :: (rest ++ zs)) := by
    rw [hl.eq]
    refine perm_append_comm.trans ?_
    rw [append_assoc, cons_append]
  have hsub : (b :: (rest ++ zs)).Sublist (dead ++ b :: (rest ++ zs)) := sublist_append_right dead _
  have hnodup' := hring₁.nodup
  have hb : Healthy kt { k with currentTask := b.1 } (b :: (rest ++ zs)) := by
    have hmoved : Healthy kt { k with currentTask := b.1 } (dead ++ b :: (rest ++ zs)) :=
      (h.perm hperm).transfer (KeepsTable.refl h.table) rfl rfl ⟨b, by simp, rfl⟩
    refine hmoved.sublist hsub ⟨b, by simp, rfl⟩ fun p hp hone => ?_
    have hp' := hperm.mem_iff.mpr hp
    have hinit : p = i := h.eq_of_id hp' hi (hone.trans hid.symm)
    have hmem := hl.init_mem hp' (hinit ▸ hlive) (hinit ▸ hnone)
    rcases mem_cons.mp hmem with rfl | hmem
    · exact mem_cons_self
    · exact mem_cons_of_mem _ (mem_append_left _ hmem)
  have hapart : ∀ p ∈ [] ++ (rest ++ zs), p.1 ≠ b.1 := by
    intro p hp heq
    have hnd := (hnodup'.sublist (hsub.map Prod.fst))
    rw [map_cons, nodup_cons] at hnd
    exact hnd.1 (mem_map.mpr ⟨p, by simpa using hp, heq⟩)
  have hb' := Healthy.update (show Healthy kt _ ([] ++ (b.1, b.2) :: (rest ++ zs)) from hb)
    Alike.delivered hapart
  refine ⟨k₁, _, hcur₁, hring₁, hsame₁, hskips, hrun,
    { ring := hdone.ring.congr rfl rfl
      healthy := ?_
      currentTask := hdone.currentTask
      nextPid := hdone.nextPid
      unlinked := hdone.unlinked
      other := hdone.other }⟩
  have hmoved : Healthy kt k₂ ((b.1, delivered b.2) :: (rest ++ zs)) :=
    hb'.transfer (by rw [hdone.machine]; exact KeepsTable.refl h.table) hdone.kernelDirectory
      hdone.nextPid ⟨_, mem_cons_self, hdone.currentTask.symm⟩
  refine hmoved.redirect ?_
  have hsees := hmoved.sees _ mem_cons_self
  rwa [delivered_pageDirectory] at hsees

end Switch

/-- `kmalloc` and `clone_page_directory` answer a fork with fresh memory or none; they leave the
stack table alone, and the clone sees it. -/
structure Granted (kt : Nat) (k : Kernel) (g : Grant) : Prop where
  fresh : g.child = 0 ∨ k.nodes g.child = none
  keeps : KeepsTable kt k.machine g.machine
  sees : g.newDir ≠ 0 → Sees g.machine kt (g.newDir / 4096)

def pidAfter (k : Kernel) (g : Grant) : Nat :=
  if g.child = 0 ∨ g.newDir = 0 then k.nextPid else k.nextPid + 1

structure Forked (kt : Nat) (k k' : Kernel) (g : Grant) (q q' : List Entry) : Prop where
  queued : Queued k' q'
  healthy : Healthy kt k' q'
  currentTask : k'.currentTask = k.currentTask
  nextPid : k'.nextPid = pidAfter k g
  other : ∀ a, a ≠ g.child → (∀ p ∈ q, p.1 ≠ a) → k'.nodes a = k.nodes a
  tasks : q' = q ∨ ∃ parent kstack, (k.currentTask, parent) ∈ q ∧
    q' = q ++ [(g.child, { childOf parent k.nextPid g.newDir with kstack := kstack })]

section Fork

variable {kt fuel : Nat} {k : Kernel} {g : Grant} {q : List Entry}

theorem Queued.apart (hq : Queued k q) {a : Nat} (hnone : k.nodes a = none) : ∀ p ∈ q, p.1 ≠ a := by
  rintro p hp rfl
  obtain ⟨n, hcell⟩ := hq.perm_mem hp
  unfold Kernel.Cell at hcell
  rw [hnone] at hcell
  cases hcell

theorem le_pidAfter (k : Kernel) (g : Grant) : k.nextPid ≤ pidAfter k g := by
  unfold pidAfter
  split
  · exact le_rfl
  · exact Nat.le_succ _

theorem pidAfter_granted (hchild : g.child ≠ 0) (hdir : g.newDir ≠ 0) :
    pidAfter k g = k.nextPid + 1 := if_neg (by simp [hchild, hdir])

theorem Forked.failed (hq : Queued k q) (h : Healthy kt k q) {m : Machine}
    (hm : KeepsTable kt k.machine m) {nodes : Nat → Option Node} {pid : Nat}
    (hpid : pid = pidAfter k g) (hmax : pid ≤ 256) (hnodes : ∀ a, k.nodes a ≠ none → nodes a = k.nodes a)
    (hother : ∀ a, a ≠ g.child → nodes a = k.nodes a) :
    Forked kt k { k with machine := m, nodes := nodes, nextPid := pid } g q q :=
  have hle : k.nextPid ≤ pid := hpid ▸ le_pidAfter k g
  { queued := hq.congr rfl fun p hp => hnodes p.1 fun hnone => hq.apart hnone p hp rfl
    healthy :=
      { current := h.current
        ids := h.ids
        bound := fun p hp => lt_of_lt_of_le (h.bound p hp) hle
        init := h.init
        parents := h.parents
        placed := h.placed
        sees := fun p hp => hm.sees _ (h.sees p hp)
        kernel := hm.sees _ h.kernel
        table := hm.table
        count := ⟨le_trans h.count.1 hle, hmax⟩ }
    currentTask := rfl
    nextPid := hpid
    other := fun a ha _ => hother a ha
    tasks := .inl rfl }

theorem Forked.enqueued {parent : Task} {kstack : Nat} {m : Machine} {k₁ : Kernel}
    (hq : Queued k q) (h : Healthy kt k q) (hparent : (k.currentTask, parent) ∈ q)
    (hnone : k.nodes g.child = none) (hnull : g.child ≠ 0) (hdir : g.newDir ≠ 0) (hlt : k.nextPid < 256)
    (hm : KeepsTable kt k.machine m) (hsees : Sees m kt (g.newDir / 4096))
    (hstack : k.nextPid ≠ 128 ∧ kstack = stackBase k.nextPid)
    (hk₁ : k₁ = { k with machine := m, nextPid := k.nextPid + 1 }.setNode g.child
      { task := { childOf parent k.nextPid g.newDir with kstack := kstack }, next := 0 })
    (hfuel : q.length ≤ fuel) :
    ∃ k', enqueue fuel k₁ g.child = .ok k' ∧ Forked kt k k' g q
      (q ++ [(g.child, { childOf parent k.nextPid g.newDir with kstack := kstack })]) := by
  have hapart := hq.apart hnone
  have hq₁ : Queued k₁ q := by
    subst hk₁
    exact hq.congr rfl fun p hp => Kernel.nodes_setNode_of_ne _ (hapart p hp) _
  have hcell : k₁.Cell g.child { childOf parent k.nextPid g.newDir with kstack := kstack } 0 := by
    subst hk₁
    exact Kernel.nodes_setNode_self _ _ _
  obtain ⟨k', hrun, hq', hmachine, hkd, hpid, hcur, hother⟩ := enqueue_spec hq₁
    (ne_nil_of_mem hparent) hcell hnull hapart hfuel
  subst hk₁
  refine ⟨k', hrun,
    { queued := hq'
      healthy := ?_
      currentTask := hcur
      nextPid := hpid.trans (pidAfter_granted hnull hdir).symm
      other := fun a ha hne => ?_
      tasks := .inr ⟨parent, kstack, hparent, rfl⟩ }⟩
  · have hmachine' : k'.machine = m := hmachine
    have hpid' : k'.nextPid = k.nextPid + 1 := hpid
    have hdir' : k'.kernelDirectory = k.kernelDirectory := hkd
    obtain ⟨i, hi, hinit⟩ := h.init
    exact
      { current := by
          obtain ⟨p, hp, heq⟩ := h.current
          exact ⟨p, mem_append_left _ hp, heq.trans hcur.symm⟩
        ids := by
          rw [map_append, nodup_append]
          refine ⟨h.ids, by simp, ?_⟩
          intro a ha b hb heq
          obtain ⟨p, hp, rfl⟩ := mem_map.mp ha
          obtain rfl : b = k.nextPid := by simpa [childOf] using hb
          exact absurd heq (Nat.ne_of_lt (h.bound p hp))
        bound := fun p hp => by
          rw [hpid']
          rcases mem_append.mp hp with hp | hp
          · exact Nat.lt_succ_of_lt (h.bound p hp)
          · obtain rfl := mem_singleton.mp hp
            exact Nat.lt_succ_self _
        init := ⟨i, mem_append_left _ hi, hinit⟩
        parents := fun p hp => by
          rcases mem_append.mp hp with hp | hp
          · exact h.parents p hp
          · obtain rfl := mem_singleton.mp hp
            exact h.bound _ hparent
        placed := fun p hp => by
          rcases mem_append.mp hp with hp | hp
          · exact h.placed p hp
          · obtain rfl := mem_singleton.mp hp
            exact .inr hstack
        sees := fun p hp => by
          rw [hmachine']
          rcases mem_append.mp hp with hp | hp
          · exact hm.sees _ (h.sees p hp)
          · obtain rfl := mem_singleton.mp hp
            exact hsees
        kernel := by
          rw [hmachine', hdir']
          exact hm.sees _ h.kernel
        table := by
          rw [hmachine']
          exact hm.table
        count := by
          have hcount := h.count
          omega }
  · rw [hother a hne]
    exact Kernel.nodes_setNode_of_ne _ ha _

theorem Healthy.currentNode (hq : Queued k q) (h : Healthy kt k q) :
    ∃ t n, (k.currentTask, t) ∈ q ∧ k.node k.currentTask = .ok { task := t, next := n } := by
  obtain ⟨p, hp, heq⟩ := h.current
  obtain ⟨n, hcell⟩ := hq.perm_mem hp
  rw [heq] at hcell
  exact ⟨p.2, n, heq ▸ hp, Kernel.node_ok hcell⟩

theorem forkWith_spec {discard : (Nat → Option Node) → Nat → Option Node}
    (hdiscard : ∀ nodes a, a ≠ g.child → discard nodes a = nodes a) (hq : Queued k q)
    (h : Healthy kt k q) (hg : Granted kt k g) (hfuel : q.length ≤ fuel) :
    (∃ r k' q', forkWith discard fuel k g = .ok (r, k') ∧ Forked kt k k' g q q') ∨
      k.nextPid = 256 ∧ g.child ≠ 0 ∧ g.newDir ≠ 0 ∧ forkWith discard fuel k g = .error .pageFault := by
  obtain ⟨parent, n, hparent, hnode⟩ := h.currentNode hq
  have hsame : g.child = 0 ∨ g.newDir = 0 → Forked kt k { k with machine := g.machine } g q q :=
    fun hfail => Forked.failed hq h hg.keeps (if_pos hfail).symm h.count.2 (fun _ _ => rfl)
      fun _ _ => rfl
  unfold forkWith
  rw [hnode]
  change (∃ r k' q', (if g.child = 0 then _ else _) = _ ∧ _) ∨
    _ ∧ _ ∧ _ ∧ (if g.child = 0 then _ else _) = _
  by_cases hchild : g.child = 0
  · rw [if_pos hchild]
    exact .inl ⟨_, _, q, rfl, hsame (.inl hchild)⟩
  rw [if_neg hchild]
  by_cases hdir : g.newDir = 0
  · rw [if_pos hdir]
    exact .inl ⟨_, _, q, rfl, hsame (.inr hdir)⟩
  rw [if_neg hdir]
  have hnone := hg.fresh.resolve_left hchild
  have hcount := h.count
  rcases lt_or_ge k.nextPid 256 with hlt | hge
  · left
    obtain ⟨kstack, m, halloc, hplace, hkeeps⟩ :=
      allocKernelStack_spec k.kernelDirectory hg.keeps.table (show 1 ≤ k.nextPid by omega) hlt
    have hm := hg.keeps.trans hkeeps
    dsimp only
    rw [halloc]
    dsimp only
    by_cases hzero : kstack = 0
    · rw [if_pos hzero]
      have hother : ∀ a, a ≠ g.child → discard (Function.update k.nodes g.child (some
          { task := { childOf parent k.nextPid g.newDir with kstack := kstack }
            next := 0 })) a = k.nodes a := fun a ha =>
        (hdiscard _ a ha).trans (update_of_ne ha _ _)
      exact ⟨_, _, q, rfl, Forked.failed hq h hm (pidAfter_granted hchild hdir).symm hlt
        (fun a ha => hother a fun heq => ha (heq ▸ hnone)) hother⟩
    · rw [if_neg hzero]
      obtain ⟨k', hrun, hforked⟩ := Forked.enqueued hq h hparent hnone hchild hdir hlt hm
        (hkeeps.sees _ (hg.sees hdir)) (hplace.resolve_left hzero) rfl hfuel
      rw [hrun]
      exact ⟨_, k', _, rfl, hforked⟩
  · right
    have hlast : k.nextPid = 256 := by omega
    refine ⟨hlast, hchild, hdir, ?_⟩
    dsimp only
    rw [hlast, allocKernelStack_fault hg.keeps.table (hg.keeps.sees _ h.kernel)]

theorem fork_spec (hq : Queued k q) (h : Healthy kt k q) (hg : Granted kt k g) (hfuel : q.length ≤ fuel) :
    (∃ r k' q', fork fuel k g = .ok (r, k') ∧ Forked kt k k' g q q') ∨
      k.nextPid = 256 ∧ g.child ≠ 0 ∧ g.newDir ≠ 0 ∧ fork fuel k g = .error .pageFault := by
  exact forkWith_spec (fun _ _ _ => rfl) hq h hg hfuel

theorem kernelFork_spec (hq : Queued k q) (h : Healthy kt k q) (hg : Granted kt k g)
    (hfuel : q.length ≤ fuel) :
    (∃ r k' q', kernelFork fuel k g = .ok (r, k') ∧ Forked kt k k' g q q') ∨
      k.nextPid = 256 ∧ g.child ≠ 0 ∧ g.newDir ≠ 0 ∧ kernelFork fuel k g = .error .pageFault := by
  rw [kernelFork_eq]
  exact forkWith_spec (fun _ _ ha => update_of_ne ha _ _) hq h hg hfuel

end Fork

def exitLine (c : Nat) (t : Task) (code : Int) (others : List Entry) : List Entry :=
  others.map (reparent t.id) ++
    [(c, { t with
        exitCode := code
        state := .zombie })]

section Exit

variable {kt fuel : Nat} {k : Kernel} {q others : List Entry} {t : Task}

theorem Alike.reparent {dying : Nat} (hpos : 1 ≤ dying) (p : Entry) : Alike p (reparent dying p) := by
  unfold Tasks.reparent
  split
  · next hchild =>
      refine ⟨rfl, rfl, rfl, rfl, fun hparent => ?_, fun _ hlive hnone => ⟨hlive, hnone⟩⟩
      simp only
      omega
  · exact Alike.refl p

def dying (fuel : Nat) (k : Kernel) (exitCode : Int) : Result Kernel := do
  let self ← k.node k.currentTask
  let k ← Loop.run .spinning (reparentBody self.task.id) fuel (k, k.readyQueue)
  let n ← k.node k.currentTask
  k.setTask k.currentTask
    { n.task with
      exitCode := exitCode
      state := .zombie }

theorem dying_le {n : Nat} {code : Int} {r : Kernel} (h : dying n k code = .ok r) (hle : n ≤ fuel) :
    dying fuel k code = .ok r := by
  obtain ⟨self, hself, hrest⟩ := Loop.bind_eq_ok.mp h
  obtain ⟨k₁, hrun, hend⟩ := Loop.bind_eq_ok.mp hrest
  refine Loop.bind_eq_ok.mpr ⟨self, hself, Loop.bind_eq_ok.mpr ⟨k₁, ?_, hend⟩⟩
  exact Loop.run_le (fun _ _ hbody => hbody) hrun hle

theorem taskExit_eq (code : Int) {n : Nat}
    (hnode : k.node k.currentTask = .ok { task := t, next := n }) (hinit : t.id ≠ 1) :
    taskExit fuel k code = dying fuel k code >>= taskSwitch fuel := by
  unfold taskExit dying
  rw [hnode]
  change (if t.id = 1 then _ else _) = _
  rw [if_neg hinit]
  simp only [bind_assoc]
  rfl

theorem exit_spec (code : Int) (hq : Queued k q) (h : Healthy kt k q)
    (hr : Upcoming k (others ++ [(k.currentTask, t)])) (hinit : t.id ≠ 1) (hfuel : q.length < fuel) :
    ∃ k', dying fuel k code = .ok k' ∧ taskExit fuel k code = taskSwitch fuel k' ∧
      Upcoming k' (exitLine k.currentTask t code others) ∧
      Healthy kt k' (exitLine k.currentTask t code others) ∧
      k'.currentTask = k.currentTask ∧ k'.nextPid = k.nextPid ∧ ∀ a, (∀ p ∈ q, p.1 ≠ a) →
      k'.nodes a = k.nodes a := by
  have hperm := hr.perm hq
  obtain ⟨c, rest, heq, hring, hcur⟩ := hr
  obtain ⟨rfl, hlast⟩ := append_inj' heq rfl
  obtain rfl : (k.currentTask, t) = c := by simpa using hlast
  have hpos := h.id_pos (hperm.mem_iff.mp (by simp : (k.currentTask, t) ∈ others ++ [_]))
  have hself := h.parents _ (hperm.mem_iff.mp (by simp : (k.currentTask, t) ∈ others ++ [_]))
  obtain ⟨pre, post, hq', rfl⟩ := hring.split
  have hsize : (pre ++ (k.currentTask, t) :: post).length < fuel := by
    have hlen := hperm.length_eq
    simp only [length_append, length_cons, length_nil] at hlen ⊢
    omega
  obtain ⟨k₁, hrun, hq₁, hbeside⟩ := reparent_run t.id []
    (show Queued k ([] ++ (pre ++ (k.currentTask, t) :: post)) from hq') hsize
  have hsplit : [] ++ (pre ++ (k.currentTask, t) :: post).map (reparent t.id) =
      pre.map (reparent t.id) ++ (k.currentTask, t) :: post.map (reparent t.id) := by
    have hkept : reparent t.id (k.currentTask, t) = (k.currentTask, t) := by
      unfold reparent
      rw [if_neg hself.ne]
    rw [nil_append, map_append, map_cons, hkept]
  rw [hsplit] at hq₁
  have hdead := hq₁.setNode { t with exitCode := code, state := .zombie }
  have hmem : ∀ a, (∀ p ∈ q, p.1 ≠ a) → ∀ p ∈ pre ++ (k.currentTask, t) :: post, p.1 ≠ a := by
    intro a ha p hp
    refine ha p (hperm.mem_iff.mp ?_)
    simp only [mem_append, mem_cons] at hp ⊢
    tauto
  have hdying : dying fuel k code = .ok (k₁.setNode k.currentTask
      { task := { t with exitCode := code, state := .zombie }
        next := headOf (post.map (reparent t.id)) }) := by
    unfold dying
    rw [hq'.node]
    change (do let k ← Loop.run Stop.spinning (reparentBody t.id) fuel (k, k.readyQueue); _) = _
    rw [hq'.ready, hrun]
    change (do let n ← k₁.node k₁.currentTask; _) = _
    rw [hbeside.currentTask, hq₁.node]
    exact hq₁.setTask _
  refine ⟨_, hdying, ?_, ⟨_, _, rfl, ⟨pre.map (reparent t.id), _, hdead, ?_⟩, hbeside.currentTask⟩,
    ?_, hbeside.currentTask, hbeside.nextPid, fun a ha => ?_⟩
  · rw [taskExit_eq code hq'.node hinit, hdying]
    rfl
  · rw [map_append, cons_append]
  · -- the records, and then the state they are part of
    have hrecords : Healthy kt k
        (pre.map (reparent t.id) ++ (k.currentTask, t) :: post.map (reparent t.id)) := by
      rw [← hsplit, nil_append]
      refine (h.perm (hperm.symm.trans ?_)).map fun p _ => Alike.reparent hpos p
      refine perm_append_comm.trans ?_
      rw [singleton_append]
      exact (List.Perm.cons _ perm_append_comm).trans perm_middle.symm
    have halike : Alike (k.currentTask, t)
        (k.currentTask, { t with exitCode := code, state := .zombie }) :=
      ⟨rfl, rfl, rfl, rfl, fun hparent => hparent, fun hone => absurd hone hinit⟩
    have hmoved := (hrecords.update halike hq₁.not_mem).transfer
      (hbeside.machine.symm ▸ KeepsTable.refl h.table) hbeside.kernelDirectory hbeside.nextPid
      ⟨_, mem_append_right _ mem_cons_self, hbeside.currentTask.symm⟩
    refine (hmoved.setNode _ _).perm ?_
    unfold exitLine
    rw [map_append]
    refine (perm_middle.trans (List.Perm.cons _ perm_append_comm)).trans ?_
    exact (perm_append_singleton _ _).symm
  · have hne : a ≠ k.currentTask := fun heq => hmem a ha (k.currentTask, t) (by simp) heq.symm
    refine (Kernel.nodes_setNode_of_ne _ hne _).trans (hbeside.other a ?_)
    simpa using hmem a ha

end Exit

section Wait

variable {kt fuel : Nat} {k : Kernel} {q : List Entry} {s : Task}

/-- A look either changes nothing, or reaps the first child that was asked for and with it every
zombie child of the caller. -/
theorem wait_spec (pid : Int) (status : Bool) (hq : Queued k q) (h : Healthy kt k q)
    (hs : (k.currentTask, s) ∈ q)
    (hfuel : q.length < fuel) : (∃ w, (w = .again ∨ w = .echild) ∧ (∀ p ∈ q, ¬ Wanted s.id pid p.2) ∧
      waitpid fuel k pid status = .ok (w, k)) ∨ ∃ pre a t post k', q = pre ++ (a, t) :: post ∧
      Wanted s.id pid t ∧
        waitpid fuel k pid status = .ok (.reaped t.id (if status then some t.exitCode else none), k') ∧
        Queued k' ((pre ++ post).filter fun p => ¬ Swept s.id p.2) ∧
        Healthy kt k' ((pre ++ post).filter fun p => ¬ Swept s.id p.2) ∧
        Reaped kt k k' q ((a, t) :: (pre ++ post).filter fun p => Swept s.id p.2) := by
  obtain ⟨n, hcell⟩ := hq.perm_mem hs
  have hnode := Kernel.node_ok hcell
  by_cases hany : ∃ p ∈ q, Wanted s.id pid p.2
  · right
    obtain ⟨pre, ⟨a, t⟩, post, rfl, hpre, hwanted⟩ :=
      exists_first (P := fun p : Entry => ¬ Wanted s.id pid p.2)
        (by obtain ⟨p, hp, hw⟩ := hany; exact ⟨p, hp, not_not.mpr hw⟩)
    have hwanted' : Wanted s.id pid t := not_not.mp hwanted
    obtain ⟨k', hrun, hq', hreaped⟩ := waitpid_reaps status hq hnode hpre hwanted'
      h.table (fun p hp => h.stackOk hp) hfuel
    refine ⟨pre, a, t, post, k', rfl, hwanted', hrun, hq', ?_, hreaped⟩
    have hsub : (pre ++ post).Sublist (pre ++ (a, t) :: post) := (sublist_cons_self _ _).append_left pre
    -- neither the caller nor init is among the dead
    have hstay : ∀ p ∈ pre ++ (a, t) :: post, ¬ Wanted s.id pid p.2 → ¬ Swept s.id p.2 →
        p ∈ (pre ++ post).filter fun p => ¬ Swept s.id p.2 := by
      intro p hp hnot hkept
      refine mem_filter.mpr ⟨?_, by simpa using hkept⟩
      rcases mem_append.mp hp with hp | hp
      · exact mem_append_left _ hp
      · rcases mem_cons.mp hp with rfl | hp
        · exact absurd hwanted' hnot
        · exact mem_append_right _ hp
    have hparent := h.parents _ hs
    refine (h.transfer hreaped.machine hreaped.kernelDirectory hreaped.nextPid
      ⟨_, hs, hreaped.currentTask.symm⟩).sublist ((filter_sublist).trans hsub)
      ⟨(k.currentTask, s), hstay _ hs (fun hw => ?_) (fun hw => hw.2.2 rfl),
        hreaped.currentTask.symm⟩ fun p hp hone => ?_
    · exact Nat.ne_of_lt hparent hw.2.1
    · obtain ⟨i, hi, hid, hlive, -⟩ := h.init
      obtain rfl := h.eq_of_id hp hi (hone.trans hid.symm)
      exact hstay p hp (fun hw => hlive hw.1) fun hw => hlive hw.1
  · left
    push Not at hany
    exact ⟨_, by split <;> simp, hany, waitpid_waits hq hnode hany hfuel⟩

end Wait

structure Rewritten (kt : Nat) (k k' : Kernel) (q q' : List Entry) : Prop where
  queued : Queued k' q'
  healthy : Healthy kt k' q'
  currentTask : k'.currentTask = k.currentTask
  nextPid : k'.nextPid = k.nextPid
  other : ∀ a, (∀ p ∈ q, p.1 ≠ a) → k'.nodes a = k.nodes a
  tasks : q' = q ∨ ∃ pre a t t' post, q = pre ++ (a, t) :: post ∧ q' = pre ++ (a, t') :: post ∧
    ∃ pending handlers, t' = { t with signalPending := pending, signalHandlers := handlers }

section Rewrite

variable {kt fuel : Nat} {k : Kernel} {q pre post : List Entry} {a : Nat} {t : Task}

theorem Rewritten.refl (hq : Queued k q) (h : Healthy kt k q) : Rewritten kt k k q q :=
  ⟨hq, h, rfl, rfl, fun _ _ => rfl, .inl rfl⟩

theorem Rewritten.signals (pending : BitVec 32) (handlers : Nat → Nat)
    (hq : Queued k (pre ++ (a, t) :: post)) (h : Healthy kt k (pre ++ (a, t) :: post))
    (hinit : t.id = 1 → t.signalPending = 0 → pending = 0) :
    ∃ k', k.setTask a { t with signalPending := pending, signalHandlers := handlers } = .ok k' ∧
      Rewritten kt k k' (pre ++ (a, t) :: post)
        (pre ++ (a, { t with signalPending := pending, signalHandlers := handlers }) :: post) := by
  refine ⟨_, hq.setTask _,
    { queued := hq.setNode _
      healthy := (h.update ?_ hq.not_mem).setNode _ _
      currentTask := rfl
      nextPid := rfl
      other := fun b hb => Kernel.nodes_setNode_of_ne _ (Ne.symm (hb (a, t) (by simp))) _
      tasks := .inr ⟨pre, a, t, _, post, rfl, rfl, pending, handlers, rfl⟩ }⟩
  exact ⟨rfl, rfl, rfl, rfl, fun hparent => hparent, fun hone hlive hnone =>
    ⟨hlive, hinit hone hnone⟩⟩

theorem signal_spec (hq : Queued k q) (h : Healthy kt k q) (sig : Int) (handler : Nat) :
    ∃ r k' q', sysSignal k sig handler = .ok (r, k') ∧ Rewritten kt k k' q q' := by
  unfold sysSignal
  by_cases hbad : sig < 1 ∨ sig > 31 ∨ sig = sigkill
  · rw [if_pos hbad]
    exact ⟨_, k, q, rfl, Rewritten.refl hq h⟩
  · rw [if_neg hbad]
    obtain ⟨t, n, hmem, hnode⟩ := h.currentNode hq
    obtain ⟨pre, post, rfl⟩ := append_of_mem hmem
    obtain ⟨k', hset, hdone⟩ := Rewritten.signals t.signalPending
      (Function.update t.signalHandlers sig.toNat handler) hq h fun _ hnone => hnone
    refine ⟨t.signalHandlers sig.toNat, k', _, ?_, hdone⟩
    rw [hnode]
    change (do let k ← k.setTask k.currentTask _; _) = _
    rw [hset]
    rfl

theorem kill_spec (hq : Queued k q) (h : Healthy kt k q) (pid sig : Int) (hfuel : q.length < fuel) :
    ∃ r k' q', sysKill fuel k pid sig = .ok (r, k') ∧ Rewritten kt k k' q q' := by
  unfold sysKill
  by_cases hbad : sig < 1 ∨ sig > 31
  · rw [if_pos hbad]
    exact ⟨_, k, q, rfl, Rewritten.refl hq h⟩
  rw [if_neg hbad]
  by_cases hinit : pid = 1
  · rw [if_pos hinit]
    exact ⟨_, k, q, rfl, Rewritten.refl hq h⟩
  rw [if_neg hinit, hq.ready]
  by_cases hany : ∃ p ∈ q, (p.2.id : Int) = pid
  · obtain ⟨pre, ⟨a, t⟩, post, rfl, hpre, hid⟩ :=
      exists_first (P := fun p : Entry => ¬ (p.2.id : Int) = pid)
        (by obtain ⟨p, hp, hw⟩ := hany; exact ⟨p, hp, not_not.mpr hw⟩)
    have hid' : (t.id : Int) = pid := not_not.mp hid
    have hne : a ≠ 0 := hq.nonnull (a, t) (by simp)
    obtain ⟨k', hset, hdone⟩ := Rewritten.signals (t.signalPending ||| (1#32 <<< sig.toNat))
      t.signalHandlers hq h fun hone => absurd (by rw [← hid', hone]; rfl) hinit
    refine ⟨0, k', _, ?_, hdone⟩
    rw [kill_run_some hq hpre hid' (by simp at hfuel; omega)]
    change (if a = 0 then _ else _) = _
    rw [if_neg hne, hq.node]
    change (do let k ← k.setTask a _; _) = _
    rw [hset]
    rfl
  · push Not at hany
    rw [kill_run_none hq hany hfuel]
    exact ⟨_, k, q, rfl, Rewritten.refl hq h⟩

end Rewrite

end JexOs.Tasks
