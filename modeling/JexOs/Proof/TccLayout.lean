import JexOs.Proof.TccStream
import JexOs.Proof.TccTable
import JexOs.Proof.TccOutput
import Mathlib.Data.List.Chain
import Mathlib.Data.List.Perm.Subperm

/-!
# When the frame is sound

An `int` behind a `char` overlaps it, a `char` at the end can lie below the frame, and a `char` that is stored to
is stored to as a word.
-/

namespace JexOs.Tcc

open X86 (Byte Word Touches)
open List Option

def Symbol.Covers (sym : Symbol) (d : Int) : Prop :=
  sym.offset ≤ d ∧ d < sym.offset + symTypeSize sym.type

def frameBytes (out : List Byte) : Nat := (outWord out subEspPos).toNat

/-- The variables share no byte, and the code reads and writes at their places and no wider than they are. -/
structure FrameSound (vs : List Variable) (s : Parser) : Prop where
  placed : ∀ v ∈ vs, ∃ sym, symtabLookup s.symtab v.name = some sym ∧ sym.type = v.type
  disjoint : ∀ v ∈ vs, ∀ w ∈ vs, v.name ≠ w.name → ∀ x y, symtabLookup s.symtab v.name = some x →
    symtabLookup s.symtab w.name = some y → ∀ d, x.Covers d → ¬ y.Covers d
  inside : ∀ v ∈ vs, ∀ x, symtabLookup s.symtab v.name = some x → ∀ d, x.Covers d →
    -(frameBytes (finish s) : Int) ≤ d ∧ d < 0
  accesses : ∃ as, Touches .ebp (s.gen.out.drop prologue.length) as ∧ ∀ a ∈ as, ∃ v ∈ vs, ∃ x,
    symtabLookup s.symtab v.name = some x ∧ a.1 = BitVec.ofInt 32 x.offset ∧
      a.2 ≤ symTypeSize x.type

/-- Behind a `char` there are only more of them, the last one is not below the frame, and only an `int` is
accessed as a word. -/
structure FrameOk (vs : List Variable) (words : List CString) : Prop where
  order : vs.Pairwise fun v w => v.type = .char → w.type = .char
  last : ∀ v ∈ vs.getLast?, v.type = .char → 1 ≤ frameTotal vs % 16 ∧ frameTotal vs % 16 ≤ 13
  words : ∀ v ∈ vs, v.name ∈ words → v.type = .int

section Layout

variable {vs before after : List Variable} {v w : Variable} {words : List CString} {s : Parser}

theorem symTypeSize_pos (htype : v.type = .int ∨ v.type = .char) : 1 ≤ symTypeSize v.type := by
  rcases htype with h | h <;> rw [h] <;> decide

theorem Variable.space_ge (v : Variable) : symTypeSize v.type ≤ v.space := by
  unfold Variable.space
  rw [Nat.mul_add, Nat.mul_one]
  exact Nat.le_add_right _ _

theorem mem_layout_iff {sym : Symbol} : sym ∈ layout 0 vs ↔
      ∃ before v after, vs = before ++ v :: after ∧ sym = v.symbol (frameTotal before) := by
  constructor
  · intro h
    have hgeneral : ∀ {used : Nat} {vs : List Variable}, sym ∈ layout used vs →
        ∃ before v after, vs = before ++ v :: after ∧ sym = v.symbol (used + frameTotal before) := by
      intro used vs
      induction vs generalizing used with
      | nil => exact fun h => absurd h not_mem_nil
      | cons v vs ih =>
        intro h
        rcases mem_cons.mp h with rfl | h
        · exact ⟨[], v, vs, rfl, rfl⟩
        · obtain ⟨before, w, after, rfl, rfl⟩ := ih h
          exact ⟨v :: before, w, after, rfl, by rw [frameTotal_cons, Nat.add_assoc]⟩
    obtain ⟨before, v, after, hvs, hsym⟩ := hgeneral h
    exact ⟨before, v, after, hvs, by rwa [Nat.zero_add] at hsym⟩
  · rintro ⟨before, v, after, rfl, rfl⟩
    rw [layout_append, Nat.zero_add]
    exact mem_append_right _ mem_cons_self

theorem Compiled.lookup (h : Compiled vs words s) (hvs : vs = before ++ v :: after) :
    symtabLookup s.symtab v.name = some (v.symbol (frameTotal before)) :=
  h.holds.lookup h.locals (mem_layout_iff.mpr ⟨before, v, after, hvs, rfl⟩)

theorem Compiled.lookup_iff (h : Compiled vs words s) (hv : v ∈ vs) {x : Symbol}
    (hx : symtabLookup s.symtab v.name = some x) :
    ∃ before after, vs = before ++ v :: after ∧ x = v.symbol (frameTotal before) := by
  obtain ⟨before, after, rfl⟩ := append_of_mem hv
  exact ⟨before, after, rfl, (some.inj ((h.lookup rfl).symm.trans hx)).symm⟩

theorem covers_symbol {used : Nat} {d : Int} :
    (v.symbol used).Covers d ↔ -4 - (used : Int) ≤ d ∧ d < -4 - (used : Int) + symTypeSize v.type :=
  Iff.rfl

theorem covers_int {used : Nat} {d : Int} (htype : v.type = .int) :
    (v.symbol used).Covers d ↔ -4 - (used : Int) ≤ d ∧ d < -(used : Int) := by
  rw [covers_symbol, htype]
  show _ ∧ d < -4 - (used : Int) + ((4 : Nat) : Int) ↔ _
  omega

theorem covers_char {used : Nat} {d : Int} (htype : v.type = .char) :
    (v.symbol used).Covers d ↔ d = -4 - (used : Int) := by
  rw [covers_symbol, htype]
  show _ ∧ d < -4 - (used : Int) + ((1 : Nat) : Int) ↔ _
  omega

theorem space_char (htype : v.type = .char) (hinit : v.init = []) : v.space = 1 := by
  unfold Variable.space
  rw [htype, hinit]
  rfl

theorem init_eq_nil (hok : ∀ v ∈ vs, v.name ∈ words → v.type = .int)
    (hwords : vs.flatMap Variable.words ⊆ words) (hv : v ∈ vs) (htype : v.type = .char) : v.init = [] := by
  by_contra hinit
  have hword : v.name ∈ v.words := by
    unfold Variable.words
    cases hcase : v.init with
    | nil => exact absurd hcase hinit
    | cons t ts => exact mem_append_right _ (mem_singleton.mpr rfl)
  have hint := hok v hv (hwords (mem_flatMap.mpr ⟨v, hv, hword⟩))
  rw [htype] at hint
  exact nomatch hint

theorem outWord_prologue (v : Word) (code behind : List Byte) :
    outWord (patch32 (prologue ++ code) subEspPos v ++ behind) subEspPos = v := by
  exact X86.joinWord_byteOf v

theorem frameBytes_finish (h : Compiled vs words s) (hbound : frameTotal vs + 16 < 2 ^ 32) :
    frameBytes (finish s) = frameSize (frameTotal vs) := by
  obtain ⟨code, as, hout, -, -⟩ := h.code
  have hfinish : finish s = patch32 (prologue ++ code) subEspPos
      (BitVec.ofNat 32 (frameSize (frameTotal vs))) ++ (emitEpilogue s.exitCode ++ []) := by
    unfold finish Parser.patch Parser.emit Gen.emit
    rw [h.prints, h.strings, h.holds.total, hout]
    exact append_assoc _ _ _
  unfold frameBytes
  rw [hfinish, outWord_prologue, BitVec.toNat_ofNat, Nat.mod_eq_of_lt]
  unfold frameSize
  omega

theorem frameSize_last {total used : Nat} (h : used + 1 = total ∧ 1 ≤ total % 16 ∧ total % 16 ≤ 13 ∨
    used + 4 ≤ total) : used + 4 ≤ frameSize total := by
  unfold frameSize
  omega

theorem last_of_frameSize {used : Nat} (h : used + 4 ≤ frameSize (used + 1)) :
    1 ≤ (used + 1) % 16 ∧ (used + 1) % 16 ≤ 13 := by
  unfold frameSize at h
  omega

theorem frameTotal_split :
    frameTotal (before ++ v :: after) = frameTotal before + v.space + frameTotal after := by
  rw [frameTotal_append, frameTotal_cons, Nat.add_assoc]

variable (h : Compiled vs words s) (htypes : ∀ v ∈ vs, v.type = .int ∨ v.type = .char)
  (hbound : frameTotal vs + 16 < 2 ^ 31)

include htypes

theorem FrameOk.apart (hok : FrameOk vs words) {mid : List Variable}
    (hvs : vs = before ++ v :: (mid ++ w :: after)) {d : Int} (hv : (v.symbol (frameTotal before)).Covers d) :
    ¬ (w.symbol (frameTotal (before ++ v :: mid))).Covers d := by
  have hvmem : v ∈ vs := hvs ▸ mem_append_cons_self
  have hwmem : w ∈ vs := hvs ▸ mem_append_right _ (mem_cons_of_mem _ mem_append_cons_self)
  have hspace := v.space_ge
  rw [frameTotal_split]
  rcases htypes v hvmem with htype | htype
  · rw [htype] at hspace
    change 4 ≤ v.space at hspace
    rw [covers_int htype] at hv
    rcases htypes w hwmem with hwtype | hwtype
    · rw [covers_int hwtype]
      omega
    · rw [covers_char hwtype]
      omega
  · have horder := hok.order
    rw [hvs, pairwise_append, pairwise_cons] at horder
    have hwtype := horder.2.1.1 w mem_append_cons_self htype
    rw [htype] at hspace
    change 1 ≤ v.space at hspace
    rw [covers_char htype] at hv
    rw [covers_char hwtype]
    omega

include h

theorem FrameOk.disjoint (hok : FrameOk vs words) (hv : v ∈ vs) (hw : w ∈ vs) (hne : v.name ≠ w.name)
    {x y : Symbol} (hx : symtabLookup s.symtab v.name = some x)
    (hy : symtabLookup s.symtab w.name = some y) {d : Int} (hxd : x.Covers d) : ¬ y.Covers d := by
  obtain ⟨before, after, hvs, rfl⟩ := h.lookup_iff hv hx
  have hwmem := hw
  rw [hvs] at hwmem
  rcases mem_append.mp hwmem with hbefore | hafter
  · obtain ⟨front, mid, rfl⟩ := append_of_mem hbefore
    have hsplit : vs = front ++ w :: (mid ++ v :: after) := by
      rw [hvs, append_assoc, cons_append]
    obtain rfl := some.inj ((h.lookup hsplit).symm.trans hy)
    exact fun hyd => hok.apart htypes hsplit hyd hxd
  · rcases mem_cons.mp hafter with rfl | hafter
    · exact absurd rfl hne
    · obtain ⟨mid, back, rfl⟩ := append_of_mem hafter
      have hsplit : vs = (before ++ v :: mid) ++ w :: back := by
        rw [hvs, append_assoc, cons_append]
      obtain rfl := some.inj ((h.lookup hsplit).symm.trans hy)
      exact hok.apart htypes hvs hxd

theorem FrameOk.inside (hok : FrameOk vs words) (hbound : frameTotal vs + 16 < 2 ^ 32) (hv : v ∈ vs)
    {x : Symbol} (hx : symtabLookup s.symtab v.name = some x) {d : Int} (hd : x.Covers d) :
    -(frameBytes (finish s) : Int) ≤ d ∧ d < 0 := by
  obtain ⟨before, after, hvs, rfl⟩ := h.lookup_iff hv hx
  have hreach : frameTotal before + 4 ≤ frameSize (frameTotal vs) := by
    rcases eq_nil_or_concat vs with hnil | ⟨init, l, hlast⟩
    · rw [hnil] at hv
      exact absurd hv not_mem_nil
    · rw [concat_eq_append] at hlast
      have hl : l ∈ vs := hlast ▸ mem_append_right _ mem_cons_self
      have hltotal : frameTotal vs = frameTotal init + l.space := by
        rw [hlast, frameTotal_split]
        rfl
      have hlspace := l.space_ge
      -- nothing is below the last one
      have hbelow : frameTotal before ≤ frameTotal init := by
        rcases eq_nil_or_concat after with rfl | ⟨mid, l', rfl⟩
        · rw [hvs] at hlast
          exact (congrArg frameTotal (append_inj_left' hlast rfl)).le
        · rw [concat_eq_append] at hvs
          have hsame : before ++ v :: mid = init := by
            refine @append_inj_left' _ _ [l'] _ [l] ?_ rfl
            rw [← hlast, hvs, append_assoc, cons_append]
          rw [← hsame, frameTotal_split]
          omega
      rcases htypes l hl with hint | hchar
      · rw [hint] at hlspace
        change 4 ≤ l.space at hlspace
        have hroom := @frameSize_last (frameTotal vs) (frameTotal init) (.inr (by omega))
        omega
      · have hmod := hok.last l (by rw [hlast, getLast?_concat]; rfl) hchar
        rw [hchar] at hlspace
        change 1 ≤ l.space at hlspace
        unfold frameSize
        omega
  rw [covers_symbol] at hd
  rw [frameBytes_finish h hbound]
  rcases htypes v hv with htype | htype
  · rw [htype] at hd
    change _ ∧ d < -4 - (frameTotal before : Int) + ((4 : Nat) : Int) at hd
    omega
  · rw [htype] at hd
    change _ ∧ d < -4 - (frameTotal before : Int) + ((1 : Nat) : Int) at hd
    omega

omit htypes in
theorem FrameOk.accesses (hok : FrameOk vs words) :
    ∃ as, Touches .ebp (s.gen.out.drop prologue.length) as ∧ ∀ a ∈ as, ∃ v ∈ vs, ∃ x,
      symtabLookup s.symtab v.name = some x ∧ a.1 = BitVec.ofInt 32 x.offset ∧ a.2 ≤ symTypeSize x.type := by
  obtain ⟨code, as, hout, htouches, haccounts⟩ := h.code
  refine ⟨as, by rw [hout, drop_left]; exact htouches, fun a ha => ?_⟩
  obtain ⟨sym, hmem, hplace, hwidth⟩ := haccounts.sound a ha
  obtain ⟨before, v, after, hvs, rfl⟩ := mem_layout_iff.mp hmem
  have hv : v ∈ vs := hvs ▸ mem_append_cons_self
  refine ⟨v, hv, _, h.lookup hvs, hplace, ?_⟩
  rcases hwidth with hnarrow | ⟨hword, hname⟩
  · exact hnarrow
  · have hint : v.type = .int := hok.words v hv hname
    have hsize : symTypeSize (v.symbol (frameTotal before)).type = 4 := by
      show symTypeSize v.type = 4
      rw [hint]
      rfl
    rw [hword, hsize]

omit h in
theorem split_unique {before' after' : List Variable} (hvs : vs = before ++ v :: after)
    (hvs' : vs = before' ++ w :: after') (htotal : frameTotal before = frameTotal before') : v = w := by
  have hlater : ∀ {b b' a a' : List Variable} {x y : Variable}, vs = b ++ x :: a →
      vs = b' ++ y :: a' → frameTotal b = frameTotal b' → ∀ c, b' = b ++ c → x = y := by
    intro b b' a a' x y hx hy hsame c hc
    rw [hx, hc, append_assoc] at hy
    have hrest := append_cancel_left hy
    cases c with
    | nil => exact (cons.inj hrest).1
    | cons z c =>
      obtain ⟨rfl, -⟩ := cons.inj hrest
      have hspace := x.space_ge
      have hpos := symTypeSize_pos (htypes x (hx ▸ mem_append_cons_self))
      rw [hc, frameTotal_split] at hsame
      omega
  rcases append_eq_append_iff.mp (hvs.symm.trans hvs') with ⟨c, hc, -⟩ | ⟨c, hc, -⟩
  · exact hlater hvs hvs' htotal c hc
  · exact (hlater hvs' hvs htotal.symm c hc).symm

omit h htypes in
theorem ofInt_inj {a b : Nat} (ha : a + 4 < 2 ^ 31) (hb : b + 4 < 2 ^ 31)
    (h : BitVec.ofInt 32 (-4 - (a : Int)) = BitVec.ofInt 32 (-4 - (b : Int))) : a = b := by
  have hint := congrArg BitVec.toInt h
  rw [BitVec.toInt_ofInt, BitVec.toInt_ofInt, Int.bmod_eq_of_le (by omega) (by omega),
    Int.bmod_eq_of_le (by omega) (by omega)] at hint
  omega

theorem FrameSound.int_of_word (hsound : FrameSound vs s) (hbound : frameTotal vs + 16 < 2 ^ 31) (hv : v ∈ vs)
    (hword : v.name ∈ words) : v.type = .int := by
  obtain ⟨code, as, hout, htouches, haccounts⟩ := h.code
  obtain ⟨as', htouches', hall⟩ := hsound.accesses
  rw [hout, drop_left] at htouches'
  obtain rfl := htouches.unique htouches'
  obtain ⟨sym, hmem, hname, haccess⟩ := haccounts.words v.name hword
  obtain ⟨w, hw, x, hx, hplace, hwidth⟩ := hall _ haccess
  have hsym : symtabLookup s.symtab v.name = some sym := hname ▸ h.holds.lookup h.locals hmem
  obtain ⟨before, after, hvs, rfl⟩ := h.lookup_iff hv hsym
  obtain ⟨before', after', hvs', rfl⟩ := h.lookup_iff hw hx
  have htotal : frameTotal vs = frameTotal before + v.space + frameTotal after := by
    rw [hvs, frameTotal_split]
  have htotal' : frameTotal vs = frameTotal before' + w.space + frameTotal after' := by
    rw [hvs', frameTotal_split]
  obtain rfl := split_unique htypes hvs hvs' (ofInt_inj (by omega) (by omega) hplace)
  rcases htypes v hv with hint | hchar
  · exact hint
  · change 4 ≤ symTypeSize v.type at hwidth
    rw [hchar] at hwidth
    exact absurd hwidth (by decide)

theorem FrameSound.order (hsound : FrameSound vs s) (hbound : frameTotal vs + 16 < 2 ^ 31)
    (hwords : vs.flatMap Variable.words ⊆ words) : vs.Pairwise fun v w => v.type = .char → w.type = .char := by
  have htrans : IsTrans Variable fun v w => v.type = .char → w.type = .char :=
    ⟨fun _ _ _ hab hbc ha => hbc (hab ha)⟩
  refine isChain_iff_pairwise.mp ?_
  rw [isChain_iff_forall_rel_of_append_cons_cons]
  intro v w before after hvs hchar
  have hv : v ∈ vs := hvs ▸ mem_append_cons_self
  have hw : w ∈ vs := hvs ▸ mem_append_right _ (mem_cons_of_mem _ mem_cons_self)
  have hsplit : vs = (before ++ [v]) ++ w :: after := by
    rw [hvs, append_assoc]
    rfl
  have hne : v.name ≠ w.name := by
    have hnames := h.locals.names
    rw [layout_names, hvs, map_append, map_cons, map_cons, nodup_append, nodup_cons] at hnames
    exact fun heq => hnames.2.1.1 (heq ▸ mem_cons_self)
  have hinit := init_eq_nil (fun u hu huw => hsound.int_of_word h htypes hbound hu huw) hwords hv hchar
  refine (htypes w hw).resolve_left fun hint => ?_
  -- the `int` begins three bytes below the `char`
  have hvd : (v.symbol (frameTotal before)).Covers (-4 - (frameTotal before : Int)) :=
    (covers_char hchar).mpr rfl
  refine hsound.disjoint v hv w hw hne _ _ (h.lookup hvs) (h.lookup hsplit) _ hvd ?_
  rw [covers_int hint, frameTotal_split, space_char hchar hinit]
  show _ ≤ _ ∧ _ < -((frameTotal before + 1 + 0 : Nat) : Int)
  omega

theorem FrameSound.last (hsound : FrameSound vs s) (hbound : frameTotal vs + 16 < 2 ^ 31)
    (hwords : vs.flatMap Variable.words ⊆ words) (hv : v ∈ vs.getLast?) (hchar : v.type = .char) :
    1 ≤ frameTotal vs % 16 ∧ frameTotal vs % 16 ≤ 13 := by
  obtain ⟨init, hvs⟩ := getLast?_eq_some_iff.mp hv
  have hmem : v ∈ vs := hvs ▸ mem_append_right _ mem_cons_self
  have hinit := init_eq_nil (fun u hu huw => hsound.int_of_word h htypes hbound hu huw) hwords hmem hchar
  have htotal : frameTotal vs = frameTotal init + 1 := by
    rw [hvs, frameTotal_split, space_char hchar hinit]
    rfl
  have hinside := hsound.inside v hmem _ (h.lookup hvs) (-4 - (frameTotal init : Int))
    ((covers_char hchar).mpr rfl)
  rw [frameBytes_finish h (by omega), htotal] at hinside
  rw [htotal]
  exact last_of_frameSize (by omega)

theorem Compiled.sound_iff (hbound : frameTotal vs + 16 < 2 ^ 31)
    (hwords : vs.flatMap Variable.words ⊆ words) : FrameSound vs s ↔ FrameOk vs words := by
  constructor
  · intro hsound
    exact
      { order := hsound.order h htypes hbound hwords
        last := fun v hv hchar => hsound.last h htypes hbound hwords hv hchar
        words := fun v hv hword => hsound.int_of_word h htypes hbound hv hword }
  · intro hok
    exact
      { placed := fun v hv => by
          obtain ⟨before, after, hvs⟩ := append_of_mem hv
          exact ⟨_, h.lookup hvs, rfl⟩
        disjoint := fun v hv w hw hne x y hx hy d hxd => hok.disjoint h htypes hv hw hne hx hy hxd
        inside := fun v hv x hx d hd => hok.inside h htypes (by omega) hv hx hd
        accesses := hok.accesses h }

end Layout

section Streams

variable {vs : List Variable} {ts : List Token} {s : Parser}

theorem Declarations.frameTotal_le (h : Declarations vs ts) : frameTotal vs ≤ 4 * ts.length := by
  have hone : ∀ {type : SymType} {v : Variable} {ts : List Token}, symTypeSize type ≤ 4 →
      Declarator type v ts → v.space ≤ 4 * ts.length := by
    intro type v ts htype h
    cases h with
    | plain hx =>
      unfold Variable.space
      simpa using htype
    | @init x eq u ts hx heq hu hts =>
      have hcount : ts.countP isIdent ≤ ts.length := countP_le_length
      calc symTypeSize type * (1 + ts.countP isIdent)
          ≤ 4 * (1 + ts.countP isIdent) := Nat.mul_le_mul_right _ htype
        _ ≤ 4 * (x :: eq :: u :: ts).length := by
            simp only [length_cons]
            omega
  have hmany : ∀ {type : SymType} {vs : List Variable} {ts : List Token}, symTypeSize type ≤ 4 →
      Declarators type vs ts → frameTotal vs ≤ 4 * ts.length := by
    intro type vs ts htype h
    induction h with
    | last h _ =>
      have hv := hone htype h
      rw [frameTotal_cons, length_append]
      show _ + 0 ≤ _
      omega
    | more h _ _ ih =>
      have hv := hone htype h
      rw [frameTotal_cons, length_append, length_cons]
      omega
  induction h with
  | nil => exact Nat.zero_le _
  | @cons vs vs' ts ts' h _ ih =>
    have hfirst : frameTotal vs ≤ 4 * ts.length := by
      cases h with
      | int _ h =>
        have hvs := hmany (by decide) h
        rw [length_cons]
        omega
      | char _ h =>
        have hvs := hmany (by decide) h
        rw [length_cons]
        omega
    rw [frameTotal_append, length_append]
    omega

theorem FrameSound.count (h : FrameSound vs s) (hnames : (vs.map Variable.name).Nodup)
    (htable : s.symtab.entries.length = symTableSize) : vs.length ≤ symTableSize := by
  have hsub : vs.map Variable.name ⊆ s.symtab.entries.map Symbol.name := by
    intro x hx
    obtain ⟨v, hv, rfl⟩ := mem_map.mp hx
    obtain ⟨sym, hsym, -⟩ := h.placed v hv
    have hname := find?_some hsym
    refine mem_map.mpr ⟨sym, mem_reverse.mp (mem_of_find?_eq_some hsym), ?_⟩
    simpa using (of_decide_eq_true hname).2
  have hlength := (List.Nodup.subperm hnames hsub).length_le
  rwa [length_map, length_map, htable] at hlength

end Streams

def Parses (tokens : List Token) (size : Nat) (g : Gen) (s : Parser) : Prop :=
  ∃ least, ∀ fuel, least ≤ fuel → ∀ m, least ≤ m →
    parseLoop tokens size fuel m (initialParser g) = some s

section Parses

variable {tokens : List Token} {size : Nat} {g : Gen} {s s' : Parser}

theorem Parses.unique (h : Parses tokens size g s) (h' : Parses tokens size g s') : s = s' := by
  obtain ⟨least, hs⟩ := h
  obtain ⟨least', hs'⟩ := h'
  have hleft := Nat.le_max_left least least'
  have hright := Nat.le_max_right least least'
  exact some.inj ((hs _ hleft _ hleft).symm.trans (hs' _ hright _ hright))

theorem Parses.table (h : Parses tokens size g s) : s.symtab.entries.length = symTableSize := by
  obtain ⟨least, hs⟩ := h
  have hkept := keeps_parseLoop size least least (initialParser g) s (hs least le_rfl _ le_rfl)
  exact hkept.trans length_replicate

end Parses

/-- The frame of declarations and assignments is sound exactly when the variables are few enough, in order and of
the right types. -/
theorem frameSound_iff {dts ats behind : List Token} {eof : Token} {vs : List Variable}
    {as : List Assignment} (hdts : Declarations vs dts)
    (hats : Assignments (fun x => x ∈ vs.map Variable.name) as ats) (hscoped : Scoped [] vs)
    (heof : eof.type = .tokEof) (hmemory : (dts ++ ats ++ eof :: behind).length * 12 < 2 ^ 32)
    (size : Nat) (g : Gen) : (vs.length ≤ symTableSize → ∃ s, Parses (dts ++ ats ++ eof :: behind) size g s) ∧
      ∀ s, Parses (dts ++ ats ++ eof :: behind) size g s → ∃ vs₁ as₁, vs₁ <+: vs ∧ as₁ <+: as ∧
          (vs₁ = vs ∧ as₁ = as ∨ guard size ≤ s.gen.out.length) ∧
          (vs.length ≤ symTableSize → s.totalLocalSize = frameTotal vs₁) ∧ (FrameSound vs₁ s ↔
            vs₁.length ≤ symTableSize ∧ FrameOk vs₁ (accessedWords vs₁ as₁)) := by
  have hloop : vs.length ≤ symTableSize → ∃ vs₁ vs₂ as₁ as₂ ts s,
      Stage (dts ++ ats ++ eof :: behind) (eof :: behind) vs vs₁ vs₂ as as₁ as₂ ts s ∧
        (ts = [] ∨ guard size ≤ s.gen.out.length) ∧ Parses (dts ++ ats ++ eof :: behind) size g s := by
    intro hroom
    have hstart : Stage (dts ++ ats ++ eof :: behind) (eof :: behind) vs [] vs as [] as (dts ++ ats)
        (initialParser g) :=
      { vars := rfl
        assigns := rfl
        order := fun h => absurd rfl h
        compiled := initial_compiled g
        place := ⟨[], rfl, rfl⟩
        left := ⟨[], dts, ats, rfl, .inl rfl, fun h => absurd rfl h, hdts, hats⟩ }
    exact Stage.loop heof hscoped hdts.types hroom size _ le_rfl hstart
  refine ⟨fun hroom => ?_, fun s hs => ?_⟩
  · obtain ⟨_, _, _, _, _, s, -, -, hs⟩ := hloop hroom
    exact ⟨s, hs⟩
  · by_cases hroom : vs.length ≤ symTableSize
    · obtain ⟨vs₁, vs₂, as₁, as₂, ts, s', hstage, hend, hs'⟩ := hloop hroom
      obtain rfl := hs.unique hs'
      have hvs := hstage.vars
      have has := hstage.assigns
      have hbound : frameTotal vs₁ + 16 < 2 ^ 31 := by
        have hall := hdts.frameTotal_le
        rw [hvs, frameTotal_append] at hall
        rw [length_append, length_append] at hmemory
        omega
      have htypes : ∀ v ∈ vs₁, v.type = .int ∨ v.type = .char := fun v hv =>
        hdts.types v (hvs ▸ mem_append_left _ hv)
      have hcount : vs₁.length ≤ symTableSize := by
        refine Nat.le_trans ?_ hroom
        rw [hvs, length_append]
        exact Nat.le_add_right _ _
      refine ⟨vs₁, as₁, ⟨vs₂, hvs.symm⟩, ⟨as₂, has.symm⟩, ?_, fun _ => hstage.compiled.holds.total, ?_⟩
      · rcases hend with rfl | hfull
        · obtain ⟨rfl, rfl⟩ := hstage.finished
          rw [append_nil] at hvs has
          exact .inl ⟨hvs.symm, has.symm⟩
        · exact .inr hfull
      · rw [hstage.compiled.sound_iff htypes hbound (subset_append_left _ _)]
        exact ⟨fun hok => ⟨hcount, hok⟩, fun hok => hok.2⟩
    · have hnames : (vs.map Variable.name).Nodup := by
        simpa using hscoped.nodup nodup_nil
      refine ⟨vs, as, prefix_refl _, prefix_refl _, .inl ⟨rfl, rfl⟩, fun h => absurd h hroom,
        fun hsound => absurd (hsound.count hnames hs.table) hroom, fun hok => absurd hok.1 hroom⟩

section Trial

def intX : List Token := [symbolToken .tokInt, nameToken "x", symbolToken .tokSemicolon]

def charC : List Token := [symbolToken .tokChar, nameToken "c", symbolToken .tokSemicolon]

def assignX : List Token :=
  [nameToken "x", symbolToken .tokAssign, numberToken 1, symbolToken .tokSemicolon]

def variableX : Variable :=
  { name := cstring "x"
    type := .int
    init := [] }

def variableC : Variable :=
  { name := cstring "c"
    type := .char
    init := [] }

def assignmentX : Assignment :=
  { name := cstring "x"
    op := .tokAssign
    rhs := [numberToken 1] }

theorem declarations_intX : Declarations [variableX] intX := by
  have hname : Declarator .int variableX [nameToken "x"] := .plain (x := nameToken "x") rfl
  have hlist : Declarators .int [variableX] ([nameToken "x"] ++ [symbolToken .tokSemicolon]) := .last hname rfl
  have hint : Declaration [variableX] intX := .int rfl hlist
  have hall := Declarations.cons hint .nil
  exact hall

theorem assignments_assignX :
    Assignments (fun x => x ∈ [variableX].map Variable.name) [assignmentX] assignX := by
  have hname : (nameToken "x").str ∈ [variableX].map Variable.name := mem_singleton.mpr rfl
  have hone : Phrase (fun x => x ∈ [variableX].map Variable.name) .expr [numberToken 1] := .single (.num rfl)
  have hassigns := @Assigns.mk (fun x => x ∈ [variableX].map Variable.name) (nameToken "x")
    (symbolToken .tokAssign) (symbolToken .tokSemicolon) [numberToken 1] rfl hname (.inl rfl) hone rfl
  have hall := Assignments.cons hassigns .nil
  exact hall

theorem scoped_variableX : Scoped [] [variableX] :=
  ⟨⟨not_mem_nil, by decide, fun u hu => absurd hu not_mem_nil⟩, trivial⟩

theorem frameSound_iff_intX : ([variableX].length ≤ symTableSize →
        ∃ s, Parses (intX ++ assignX ++ [symbolToken .tokEof]) 4096 freshGen s) ∧
      ∀ s, Parses (intX ++ assignX ++ [symbolToken .tokEof]) 4096 freshGen s →
        ∃ vs₁ as₁, vs₁ <+: [variableX] ∧ as₁ <+: [assignmentX] ∧
          (vs₁ = [variableX] ∧ as₁ = [assignmentX] ∨ guard 4096 ≤ s.gen.out.length) ∧
          ([variableX].length ≤ symTableSize → s.totalLocalSize = frameTotal vs₁) ∧ (FrameSound vs₁ s ↔
            vs₁.length ≤ symTableSize ∧ FrameOk vs₁ (accessedWords vs₁ as₁)) :=
  frameSound_iff declarations_intX assignments_assignX scoped_variableX rfl (by decide) 4096 freshGen

/-- `char c; int x;`: the byte of `c` at `ebp - 4` and the last one of `x`, at `ebp - 5`, overlap. -/
theorem frame_charC_intX : Declarations [variableC, variableX] (charC ++ intX) ∧
      ∃ s, parseLoop (charC ++ intX ++ [symbolToken .tokEof]) 4096 8 8 (initialParser freshGen) = some s ∧
        ¬ FrameSound [variableC, variableX] s := by
  have hname : Declarator .char variableC [nameToken "c"] := .plain (x := nameToken "c") rfl
  have hlist : Declarators .char [variableC] ([nameToken "c"] ++ [symbolToken .tokSemicolon]) :=
    .last hname rfl
  have hchar : Declaration [variableC] charC := .char rfl hlist
  refine ⟨.cons hchar declarations_intX, ?_⟩
  have hplaces : ((parseLoop (charC ++ intX ++ [symbolToken .tokEof]) 4096 8 8
      (initialParser freshGen)).map fun s =>
        (symtabLookup s.symtab (cstring "c"), symtabLookup s.symtab (cstring "x"))) =
      some (some (newSymbol (cstring "c") .char 0), some (newSymbol (cstring "x") .int 1)) := by
    decide +kernel
  obtain ⟨s, hs, hboth⟩ := map_eq_some_iff.mp hplaces
  obtain ⟨hc, hx⟩ := Prod.mk.inj hboth
  refine ⟨s, hs, fun hsound => ?_⟩
  refine hsound.disjoint variableC mem_cons_self variableX (mem_cons_of_mem _ mem_cons_self)
    (by decide) _ _ hc hx (-4) ⟨by decide, by decide⟩ ⟨by decide, by decide⟩

end Trial

end JexOs.Tcc
