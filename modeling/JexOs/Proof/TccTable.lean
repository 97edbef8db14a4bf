import JexOs.Proof.TccSteps
import Mathlib.Logic.Relation

/-!
# The symbol table over a run

Turns of the main loop only enter locals in the table.
-/

namespace JexOs.Tcc

open X86 (Byte Word)

def Enrolls (tab tab' : Symtab) : Prop :=
  ∃ name type offset r, symtabAdd tab name type offset 1 = some (r, tab')

def Enlarged : Symtab → Symtab → Prop := Relation.ReflTransGen Enrolls

theorem Enlarged.refl {tab : Symtab} : Enlarged tab tab := Relation.ReflTransGen.refl

theorem Enlarged.trans {tab tab' tab'' : Symtab} (h : Enlarged tab tab') (h' : Enlarged tab' tab'') :
    Enlarged tab tab'' := Relation.ReflTransGen.trans h h'

theorem enlarged_declare {s s' : Parser} {name : CString} {type : SymType}
    (h : s.declare name type = some s') : Enlarged s.symtab s'.symtab := by
  obtain ⟨⟨r, tab⟩, hadd, h⟩ := Option.bind_eq_some_iff.mp h
  cases h
  exact Relation.ReflTransGen.single ⟨name, type, s.nextOffset, r, hadd⟩

def Enlarges (s s' : Parser) : Prop := Enlarged s.symtab s'.symtab

section Enlarges

variable {tokens : List Token} {fuel : Nat} {s : Parser}

theorem enlarges_carried : Carried Enlarges where
  trans := Enlarged.trans
  append _ _ _ _ _ htab := by
    unfold Enlarges
    rw [htab]
    exact Enlarged.refl
  declare := enlarged_declare
  patch _ _ := Enlarged.refl

theorem enlarges_emitPrint (s : Parser) (text : CString) : Enlarges s (emitPrint s text) := by
  unfold emitPrint
  split <;> exact Enlarged.refl

theorem enlarges_parseTurn : Leads Enlarges s (parseTurn tokens fuel s) := by
  have hR := enlarges_carried
  unfold parseTurn
  repeat' first
    | exact .result Enlarged.refl
    | exact leads_parsePrint hR.plain enlarges_emitPrint
    | exact leads_parseReturn hR
    | exact leads_parseAsm hR.plain
    | exact leads_parseNamed hR.plain
    | exact leads_parseDeclaration hR.plain
    | exact leads_closeBrace hR
    | exact leads_parseControl hR
    | refine .bind fun _ _ => ?_
    | split

theorem enlarges_parseLoop (size fuel n : Nat)
    (s : Parser) : Leads Enlarges s (parseLoop tokens size fuel n s) := by
  induction n generalizing s with
  | zero => exact fun s' h => nomatch h
  | succ n ih =>
    refine .bind fun type _ => ?_
    split
    · exact .bind fun s₁ hturn => enlarges_carried.plain.behind (ih s₁) (enlarges_parseTurn s₁ hturn)
    · exact .result Enlarged.refl

end Enlarges

def Flat (tab : Symtab) : Prop := ∀ sym ∈ tab.entries, sym.scopeLevel = 1 ∨ sym.scopeLevel = -1

section Enlarged

variable {tab tab' : Symtab}

theorem Enrolls.cases (h : Enrolls tab tab') :
    tab' = tab ∨ ∃ idx sym, sym.scopeLevel = 1 ∧ tab'.entries = tab.entries.set idx sym := by
  obtain ⟨name, type, offset, r, hadd⟩ := h
  unfold symtabAdd at hadd
  split at hadd
  · cases hadd
    exact .inl rfl
  · split at hadd
    · cases hadd
      exact .inl rfl
    · split at hadd
      · cases hadd
        exact .inl rfl
      · obtain ⟨stored, -, hstored⟩ := Option.bind_eq_some_iff.mp hadd
        cases hstored
        exact .inr ⟨_, _, rfl, rfl⟩

theorem Enlarged.length (h : Enlarged tab tab') : tab'.entries.length = tab.entries.length := by
  induction h with
  | refl => rfl
  | tail _ hstep ih =>
    rcases hstep.cases with rfl | ⟨idx, sym, -, hentries⟩
    · exact ih
    · rw [hentries, List.length_set, ih]

theorem Enlarged.flat (h : Enlarged tab tab') (hflat : Flat tab) : Flat tab' := by
  induction h with
  | refl => exact hflat
  | tail _ hstep ih =>
    rcases hstep.cases with rfl | ⟨idx, new, hnew, hentries⟩
    · exact ih
    · intro sym hmem
      rw [hentries] at hmem
      rcases List.mem_or_eq_of_mem_set hmem with hmem | rfl
      · exact ih sym hmem
      · exact .inl hnew

theorem flat_init : Flat symtabInit := by
  intro sym hmem
  rw [List.eq_of_mem_replicate hmem]
  exact .inr rfl

end Enlarged

def Keeps (s : Parser) (result : Option Parser) : Prop :=
  ∀ s', result = some s' → s'.symtab.entries.length = s.symtab.entries.length

theorem keeps_parseLoop {tokens : List Token} (size fuel n : Nat) (s : Parser) :
    Keeps s (parseLoop tokens size fuel n s) :=
  fun s' h => (enlarges_parseLoop size fuel n s s' h).length

end JexOs.Tcc
