import Mathlib.Data.List.Basic

/-!
# Linked chains

A list threaded through a store: each node names its successor and `stop` ends the list.
-/

namespace Linked

open List

variable {α : Type} {next next' : α → α} {stop head : α} {nodes : List α}

/-- Following `next` from `head` visits exactly `nodes`, then meets `stop`. -/
def Chain (next : α → α) (stop : α) : α → List α → Prop
  | head, [] => head = stop
  | head, node :: rest => head = node ∧ node ≠ stop ∧ Chain next stop (next node) rest

theorem Chain.congr (hchain : Chain next stop head nodes)
    (hnext : ∀ node ∈ nodes, next' node = next node) : Chain next' stop head nodes := by
  induction nodes generalizing head with
  | nil => exact hchain
  | cons node rest ih =>
    obtain ⟨hhead, hstop, hrest⟩ := hchain
    refine ⟨hhead, hstop, ?_⟩
    rw [hnext node mem_cons_self]
    exact ih hrest fun other hother => hnext other (mem_cons_of_mem node hother)

theorem Chain.ne_stop (hchain : Chain next stop head nodes) : ∀ node ∈ nodes, node ≠ stop := by
  induction nodes generalizing head with
  | nil => simp
  | cons node rest ih =>
    obtain ⟨_, hstop, hrest⟩ := hchain
    exact forall_mem_cons.mpr ⟨hstop, ih hrest⟩

theorem Chain.head_eq (hchain : Chain next stop head nodes) : head = nodes.headD stop := by
  cases nodes with
  | nil => exact hchain
  | cons node rest => exact hchain.1

variable {nodes' before after : List α} {node pred : α}

theorem Chain.unique (hchain : Chain next stop head nodes)
    (hchain' : Chain next stop head nodes') : nodes = nodes' := by
  induction nodes generalizing head nodes' with
  | nil =>
    cases nodes' with
    | nil => rfl
    | cons node rest =>
      obtain ⟨hhead, hstop, _⟩ := hchain'
      exact absurd (hhead.symm.trans hchain) hstop
  | cons node rest ih =>
    obtain ⟨hhead, hstop, hrest⟩ := hchain
    cases nodes' with
    | nil => exact absurd (hhead.symm.trans hchain') hstop
    | cons node' rest' =>
      obtain ⟨hhead', _, hrest'⟩ := hchain'
      obtain rfl : node = node' := hhead.symm.trans hhead'
      rw [ih hrest hrest']

section

variable (hchain : Chain next stop head (before ++ node :: after))

include hchain

theorem Chain.suffix : Chain next stop (next node) after := by
  induction before generalizing head with
  | nil => exact hchain.2.2
  | cons _ before ih => exact ih hchain.2.2

variable (hnodes : Chain next' stop head nodes')

include hnodes

variable (hnext : ∀ other ∈ before, next' other = next other)

include hnext

theorem Chain.reached : ∃ after', nodes' = before ++ node :: after' ∧
    Chain next' stop (next' node) after' := by
  induction before generalizing head nodes' with
  | nil =>
    obtain ⟨rfl, hstop, -⟩ := hchain
    cases nodes' with
    | nil => exact absurd hnodes hstop
    | cons first rest =>
      obtain ⟨rfl, -, hrest⟩ := hnodes
      exact ⟨rest, rfl, hrest⟩
  | cons first before ih =>
    obtain ⟨rfl, hstop, hrest⟩ := hchain
    cases nodes' with
    | nil => exact absurd hnodes hstop
    | cons first' rest' =>
      obtain ⟨rfl, -, hrest'⟩ := hnodes
      rw [hnext head mem_cons_self] at hrest'
      obtain ⟨after', rfl, hafter'⟩ :=
        ih hrest hrest' fun other hother => hnext other (mem_cons_of_mem head hother)
      exact ⟨after', rfl, hafter'⟩

theorem Chain.cut (hcut : next' node = stop) : nodes' = before ++ [node] := by
  obtain ⟨after', rfl, hafter'⟩ := hchain.reached hnodes hnext
  rw [hcut] at hafter'
  obtain rfl : after' = [] := hafter'.unique rfl
  rfl

theorem Chain.not_loop (hloop : next' node = node) : False := by
  obtain ⟨after', rfl, hafter'⟩ := hchain.reached hnodes hnext
  have hnode : node ≠ stop := hchain.ne_stop node (mem_append_right before mem_cons_self)
  have hagain : Chain next' stop (next' node) (node :: after') := ⟨hloop, hnode, hafter'⟩
  have hlength := congrArg List.length (hafter'.unique hagain)
  rw [length_cons] at hlength
  omega

end

theorem Chain.unlink (hchain : Chain next stop head (before ++ pred :: node :: after))
    (hpred : next' pred = next node) (hnext : ∀ other ∈ before ++ after, next' other = next other) :
    Chain next' stop head (before ++ pred :: after) := by
  induction before generalizing head with
  | nil =>
    obtain ⟨hhead, hstop, -, -, hrest⟩ := hchain
    refine ⟨hhead, hstop, ?_⟩
    rw [hpred]
    exact hrest.congr hnext
  | cons first before ih =>
    obtain ⟨hhead, hstop, hrest⟩ := hchain
    refine ⟨hhead, hstop, ?_⟩
    rw [hnext first (by simp)]
    exact ih hrest fun other hother => hnext other (mem_cons_of_mem first hother)

theorem Chain.insert (hchain : Chain next stop head (before ++ pred :: after)) (hnode : node ≠ stop)
    (hpred : next' pred = node) (hlink : next' node = next pred)
    (hnext : ∀ other ∈ before ++ after, next' other = next other) :
    Chain next' stop head (before ++ pred :: node :: after) := by
  induction before generalizing head with
  | nil =>
    obtain ⟨hhead, hstop, hrest⟩ := hchain
    refine ⟨hhead, hstop, hpred, hnode, ?_⟩
    rw [hlink]
    exact hrest.congr hnext
  | cons first before ih =>
    obtain ⟨hhead, hstop, hrest⟩ := hchain
    refine ⟨hhead, hstop, ?_⟩
    rw [hnext first (mem_append_left after mem_cons_self)]
    exact ih hrest fun other hother => hnext other (mem_cons_of_mem first hother)

end Linked
