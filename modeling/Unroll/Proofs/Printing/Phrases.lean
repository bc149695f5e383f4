import Unroll.Proofs.Spellable
import Unroll.Proofs.Token.Pieces
/-!
# What is printed of a phrase is read back

A phrase begins with a word, a literal, an opening bracket or an operator in front, and ends with a word, a literal or a
closing bracket (`Piece.Whole`).  So whatever mark is written right behind a phrase does not make its last token longer,
and no mark goes on in a phrase that is written right behind it; what is printed of a tree that can be spelled is put
together from such phrases.
-/
namespace Unroll

namespace TokenKind

/-- A phrase may begin with the token. -/
def opens : TokenKind → Bool
  | keyword _ | name _ | int _ | char _ | text _ => true
  | symbol .lparen | symbol .lbrace | symbol .lbracket | symbol .minus | symbol .bang => true
  | _ => false

/-- A phrase may end with the token. -/
def closes : TokenKind → Bool
  | keyword _ | name _ | int _ | char _ | text _ => true
  | symbol .rparen | symbol .rbrace | symbol .rbracket | symbol .gt => true
  | _ => false

/-- Nothing goes on in what a phrase begins with. -/
theorem symbol_opens {k : TokenKind} (h : k.opens = true) (s : Symbol) : (symbol s).goesOn k = false := by
  cases k with
  | symbol s' =>
    have hslash : (s' == .slash) = false := by
      cases s' <;> first | rfl | cases h
    have hfirst : ∀ c, s'.spelling.toList.head? = some c → Lexeme.joins c = false := by
      cases s' <;> first | (rintro _ ⟨⟩; rfl) | cases h
    rw [goesOn, hslash, Bool.and_false, Bool.or_false, Option.any_eq_false]
    exact fun c hc => Symbol.absorbs_joins (hfirst c hc)
  | _ => rfl

/-- What makes no longer symbol goes on in nothing. -/
theorem goesOn_nothing {s : Symbol} (habsorbs : ∀ c, s.absorbs c = false) (hslash : (s == .slash) = false) :
    ∀ k, (symbol s).goesOn k = false
  | symbol s' => by
    rw [goesOn, hslash, Bool.false_and, Bool.or_false, Option.any_eq_false]
    exact fun c _ => habsorbs c
  | keyword _ | name _ | int _ | char _ | text _ | newline | indent | dedent | eof => rfl

/-- What ends a phrase goes on in no symbol that an angle bracket does not go on in. -/
theorem closes_symbol {k : TokenKind} (h : k.closes = true) {s : Symbol}
    (hs : (symbol .gt).goesOn (symbol s) = false) : k.goesOn (symbol s) = false := by
  cases k with
  | symbol s' => cases s' <;> first | exact hs | exact goesOn_nothing (fun _ => rfl) rfl _ | cases h
  | _ => rfl

end TokenKind

open TokenKind

/-- The bracket that closes what this one opens. -/
def Symbol.closing : Symbol → Option Symbol
  | .lparen => some .rparen
  | .lbrace => some .rbrace
  | .lbracket => some .rbracket
  | _ => none

namespace Piece

open Print (sym word name commaSeparated)

variable {k : TokenKind} {s o c : Symbol} {p : Piece} {ps qs mid : List Piece}

/-- The first pieces do not go on in the others. -/
def Meets (ps qs : List Piece) : Prop := ∀ p ∈ ps.getLast?, ∀ q ∈ qs.head?, Apart p q

/-- **A phrase**: neat pieces that begin and end as one. -/
structure Whole (ps : List Piece) : Prop extends Neat ps where
  opened : ∃ k, ps.head? = some (token k) ∧ k.opens = true
  closed : ∃ k, ps.getLast? = some (token k) ∧ k.closes = true

/-! ## Where pieces meet -/

theorem meets_space (ps qs : List Piece) : Meets ps (space :: qs) := by
  rintro p - q hq
  cases hq
  exact apart_space p

theorem space_meets (ps qs : List Piece) : Meets (ps ++ [space]) qs := by
  rintro p hp q -
  rw [List.getLast?_concat] at hp
  cases hp
  exact space_apart q

/-- An opening bracket goes on in nothing. -/
theorem bracket_meets (h : o.closing = some c) (ps : List Piece) : Meets [sym o] ps := by
  rintro p hp q -
  cases hp
  cases q with
  | space => trivial
  | token k => cases o <;> first | exact goesOn_nothing (fun _ => rfl) rfl k | cases h

namespace Whole

theorem meets_symbol (h : Whole ps) (hs : (symbol .gt).goesOn (symbol s) = false) : Meets ps (sym s :: qs) := by
  obtain ⟨k, hlast, hk⟩ := h.closed
  rintro p hp q hq
  rw [hlast] at hp
  cases hp
  cases hq
  exact closes_symbol hk hs

theorem symbol_meets (h : Whole qs) (ps : List Piece) : Meets (ps ++ [sym s]) qs := by
  obtain ⟨k, hhead, hk⟩ := h.opened
  rintro p hp q hq
  rw [List.getLast?_concat] at hp
  rw [hhead] at hq
  cases hp
  cases hq
  exact symbol_opens hk s

end Whole

/-! ## Neat pieces -/

namespace Neat

theorem nil : Neat [] := ⟨by simp, .nil, .nil⟩

theorem space : Neat [space] := ⟨by simp, .singleton _, .nil⟩

theorem token (hk : k.Writable) (hd : k.bracketDelta = 0) : Neat [token k] :=
  ⟨by simpa using hk, .singleton _, .neutral hd⟩

theorem mark (hd : (symbol s).bracketDelta = 0) : Neat [sym s] := .token trivial hd

theorem append (h : Neat ps) (h' : Neat qs) (hmeet : Meets ps qs) : Neat (ps ++ qs) := by
  refine ⟨?_, List.isChain_append.2 ⟨h.apart, h'.apart, hmeet⟩, ?_⟩
  · rw [kinds_append]
    exact List.forall_mem_append.2 ⟨h.writable, h'.writable⟩
  · rw [kinds_append]
    exact h.balanced.append h'.balanced

/-- **Brackets around neat pieces make a phrase.** -/
theorem bracketed (h : Neat ps) (hb : o.closing = some c) (hmeet : Meets ps [sym c]) :
    Whole (sym o :: ps ++ [sym c]) := by
  have ho : (symbol o).opens = true ∧ (symbol o).bracketDelta = 1 := by
    cases o <;> first | exact ⟨rfl, rfl⟩ | cases hb
  have hc : (symbol c).closes = true ∧ (symbol c).bracketDelta = -1 := by
    cases o <;> cases hb <;> exact ⟨rfl, rfl⟩
  have hclosing : (ps ++ [sym c]).IsChain Apart := List.isChain_append.2 ⟨h.apart, .singleton _, hmeet⟩
  have hkinds : kinds (sym o :: ps ++ [sym c]) = symbol o :: kinds ps ++ [symbol c] := by simp
  refine ⟨⟨?_, ?_, ?_⟩, ⟨_, rfl, ho.1⟩, ⟨_, List.getLast?_concat, hc.1⟩⟩
  · rw [hkinds]
    exact List.forall_mem_append.2 ⟨List.forall_mem_cons.2 ⟨trivial, h.writable⟩, List.forall_mem_singleton.2 trivial⟩
  · exact List.isChain_cons.2 ⟨bracket_meets hb _ _ rfl, hclosing⟩
  · rw [hkinds]
    exact h.balanced.enclosed ho.2 hc.2

end Neat

namespace Whole

theorem token (hk : k.Writable) (ho : k.opens = true) (hc : k.closes = true) : Whole [.token k] := by
  have hd : k.bracketDelta = 0 := by
    cases k with
    | symbol s => cases s <;> first | rfl | exact absurd ho (by decide) | exact absurd hc (by decide)
    | _ => rfl
  exact ⟨.token hk hd, ⟨k, rfl, ho⟩, ⟨k, rfl, hc⟩⟩

theorem name {n : String} (h : IsName n) : Whole [Print.name n] := .token h rfl rfl

theorem word (w : Keyword) : Whole [Print.word w] := .token trivial rfl rfl

/-- A phrase behind a phrase. -/
theorem append (h : Whole ps) (h' : Whole qs) (hmeet : Meets ps qs) : Whole (ps ++ qs) := by
  obtain ⟨k, hhead, hk⟩ := h.opened
  obtain ⟨k', hlast, hk'⟩ := h'.closed
  refine ⟨h.toNeat.append h'.toNeat hmeet, ⟨k, ?_, hk⟩, ⟨k', ?_, hk'⟩⟩
  · rw [List.head?_append, hhead, Option.some_or]
  · rw [List.getLast?_append, hlast, Option.some_or]

/-- **Two phrases with something between them.** -/
theorem joined (h : Whole ps) (h' : Whole qs) (hmid : Neat (p :: mid)) (hl : Meets ps (p :: mid))
    (hr : Meets (p :: mid) qs) : Whole (ps ++ p :: mid ++ qs) := by
  obtain ⟨k, hhead, hk⟩ := h.opened
  obtain ⟨k', hlast, hk'⟩ := h'.closed
  rw [List.append_assoc]
  refine ⟨h.toNeat.append (hmid.append h'.toNeat hr) hl, ⟨k, ?_, hk⟩, ⟨k', ?_, hk'⟩⟩
  · rw [List.head?_append, hhead, Option.some_or]
  · rw [List.getLast?_append, List.getLast?_append, hlast, Option.some_or, Option.some_or]

/-- A phrase with a mark that no phrase goes on in, and a phrase behind it. -/
theorem marked (h : Whole ps) (h' : Whole qs) (hd : (symbol s).bracketDelta = 0)
    (hs : (symbol .gt).goesOn (symbol s) = false) : Whole (ps ++ [sym s] ++ qs) :=
  h.joined h' (.mark hd) (h.meets_symbol hs) (h'.symbol_meets [])

theorem spaced (h : Whole ps) (h' : Whole qs) : Whole (ps ++ [.space] ++ qs) :=
  h.joined h' .space (meets_space _ _) (space_meets [] _)

theorem listed (h : Whole ps) (h' : Whole qs) (hd : (symbol s).bracketDelta = 0)
    (hs : (symbol .gt).goesOn (symbol s) = false) : Whole (ps ++ [sym s, .space] ++ qs) :=
  h.joined h' ((Neat.mark hd).append .space (meets_space _ _)) (h.meets_symbol hs) (space_meets [_] _)

theorem operator (h : Whole ps) (h' : Whole qs) (hd : (symbol s).bracketDelta = 0) :
    Whole (ps ++ [.space, sym s, .space] ++ qs) :=
  have hmark : Neat [sym s, .space] := (Neat.mark hd).append .space (meets_space _ _)
  h.joined h' (Neat.space.append hmark (space_meets [] _)) (meets_space _ _) (space_meets [_, _] _)

theorem prefixed (h : Whole qs) (ho : (symbol s).opens = true) (hd : (symbol s).bracketDelta = 0) :
    Whole (sym s :: qs) := by
  obtain ⟨k, hlast, hk⟩ := h.closed
  refine ⟨(Neat.mark hd).append h.toNeat (h.symbol_meets []), ⟨_, rfl, ho⟩, ⟨k, ?_, hk⟩⟩
  rw [List.getLast?_cons, hlast, Option.getD_some]

/-- An angle bracket behind a phrase. -/
theorem angle (h : Whole ps) : Whole (ps ++ [sym .gt]) := by
  obtain ⟨k, hhead, hk⟩ := h.opened
  refine ⟨h.toNeat.append (.mark rfl) (h.meets_symbol rfl), ⟨k, ?_, hk⟩, ⟨_, List.getLast?_concat, rfl⟩⟩
  rw [List.head?_append, hhead, Option.some_or]

/-- Brackets right behind a phrase. -/
theorem followed (h : Whole ps) (h' : Whole (sym o :: qs)) (ho : (symbol .gt).goesOn (symbol o) = false) :
    Whole (ps ++ sym o :: qs) := h.append h' (h.meets_symbol ho)

/-- Braces around a phrase, at a distance. -/
theorem braced (h : Whole ps) : Whole (sym .lbrace :: ([.space] ++ ps ++ [.space]) ++ [sym .rbrace]) := by
  have hinside := (Neat.space.append h.toNeat (space_meets [] _)).append .space (meets_space _ _)
  exact hinside.bracketed rfl (space_meets _ _)

end Whole

/-- **Pieces that fill a line**: neat ones that begin with a token. -/
structure FillsLine (ps : List Piece) : Prop extends Neat ps where
  begun : ∃ k rest, ps = token k :: rest

namespace Whole

theorem fillsLine (h : Whole ps) : FillsLine ps := by
  obtain ⟨k, hk, -⟩ := h.opened
  obtain ⟨rest, rfl⟩ := List.head?_eq_some_iff.1 hk
  exact ⟨h.toNeat, k, rest, rfl⟩

/-- A phrase that announces a block. -/
theorem colon (h : Whole ps) : FillsLine (ps ++ [sym .colon]) := by
  obtain ⟨hneat, k, rest, rfl⟩ := h.fillsLine
  exact ⟨hneat.append (.mark rfl) (h.meets_symbol rfl), k, rest ++ [sym .colon], rfl⟩

end Whole

/-! ## Lists -/

theorem commaSeparated_whole : ∀ {pss : List (List Piece)}, pss ≠ [] → (∀ ps ∈ pss, Whole ps) →
    Whole (commaSeparated pss)
  | [], hne, _ => absurd rfl hne
  | [ps], _, h => h ps (List.mem_singleton_self ps)
  | ps :: qs :: pss, _, h => by
    obtain ⟨hps, hrest⟩ := List.forall_mem_cons.1 h
    simpa [commaSeparated] using hps.listed (commaSeparated_whole (List.cons_ne_nil _ _) hrest) rfl rfl

/-- **A list between brackets is a phrase**, however many phrases are in it. -/
theorem commaSeparated_bracketed {pss : List (List Piece)} (hb : o.closing = some c) (h : ∀ ps ∈ pss, Whole ps) :
    Whole (sym o :: commaSeparated pss ++ [sym c]) := by
  have hc : (symbol .gt).goesOn (symbol c) = false := by
    cases o <;> cases hb <;> rfl
  cases pss with
  | nil => exact Neat.nil.bracketed hb (by rintro p ⟨⟩)
  | cons ps pss =>
    have hwhole := commaSeparated_whole (List.cons_ne_nil ps pss) h
    exact hwhole.toNeat.bracketed hb (hwhole.meets_symbol hc)

end Piece

/-! ## Expressions and types -/

open Piece Print

theorem wrap_whole (place own : Prec) {ps : List Piece} (h : Whole ps) : Whole (wrap place own ps) := by
  unfold wrap
  split
  · exact h.toNeat.bracketed rfl (h.meets_symbol rfl)
  · exact h

theorem int_whole (place : Prec) {v : Int} (h : 0 ≤ v ∧ v < Arith.bound) : Whole (Print.int place v) := by
  have hlarge : Arith.bound < UInt64.size := by decide
  have hv : v.natAbs < UInt64.size := by omega
  unfold Print.int
  rw [if_neg (by omega)]
  exact .token hv rfl rfl

mutual

/-- **What is printed of an expression that can be spelled is a phrase**, in every place. -/
theorem Expr.Spellable.printed : ∀ (place : Prec) (e : Expr), e.Spellable → Whole (Print.expr place e)
  | _, .name _ _, h => by simpa [Print.expr] using Whole.name h
  | place, .int _ _, h => by simpa [Print.expr] using int_whole place h
  | _, .char _ c, _ => by simpa [Print.expr] using Whole.token (k := .char c) trivial rfl rfl
  | _, .text _ s, _ => by simpa [Print.expr] using Whole.token (k := .text s) trivial rfl rfl
  | _, .bool _ b, _ => by simpa [Print.expr] using Whole.word (if b then .trueWord else .falseWord)
  | _, .list _ items, h | _, .array _ items, h => by
    simpa [Print.expr] using commaSeparated_bracketed rfl (Expr.AllSpellable.printed items h)
  | _, .record _ _ [], h => by
    have hbraces : Whole [sym .lbrace, sym .rbrace] := Neat.nil.bracketed rfl (by rintro p ⟨⟩)
    simpa [Print.expr] using (Whole.name h.1).spaced hbraces
  | _, .record _ _ (f :: fs), h => by
    have hne : Print.fields (f :: fs) ≠ [] := by simp [Print.fields]
    have hfields := commaSeparated_whole hne (Expr.FieldsSpellable.printed (f :: fs) h.2)
    simpa [Print.expr] using (Whole.name h.1).spaced hfields.braced
  | place, .unary _ op e, h => by
    have hoperand := Expr.Spellable.printed .unary e h
    have hprefixed := hoperand.prefixed (s := op.symbol) (by cases op <;> rfl) (by cases op <;> rfl)
    simpa [Print.expr] using wrap_whole place .unary hprefixed
  | place, .binary _ l op r, h => by
    have hleft := Expr.Spellable.printed op.prec l h.1
    have hright := Expr.Spellable.printed op.prec.tighter r h.2
    have hjoined := hleft.operator (s := op.symbol) hright (by cases op <;> rfl)
    simpa [Print.expr] using wrap_whole place op.prec hjoined
  | _, .member _ e _, h => by
    have hbase := Expr.Spellable.printed .suffix e h.1
    simpa [Print.expr] using hbase.marked (s := .dot) (Whole.name h.2) rfl rfl
  | _, .index _ e i, h => by
    have hbase := Expr.Spellable.printed .suffix e h.1
    have hindex := Expr.Spellable.printed .lowest i h.2
    have hbrackets := hindex.toNeat.bracketed (o := .lbracket) rfl (hindex.meets_symbol rfl)
    simpa [Print.expr] using hbase.followed hbrackets rfl
  | _, .call _ _ [] args, h => by
    have hargs := commaSeparated_bracketed (o := .lparen) rfl (Expr.AllSpellable.printed args h.2.2)
    simpa [Print.expr] using (Whole.name h.1).followed hargs rfl
  | _, .call _ _ (g :: gs) args, h => by
    have hne : Print.typeArgs (g :: gs) ≠ [] := by simp [Print.typeArgs]
    have hgeneric := commaSeparated_whole hne (TypeArg.AllSpellable.printed (g :: gs) h.2.1)
    have hargs := commaSeparated_bracketed (o := .lparen) rfl (Expr.AllSpellable.printed args h.2.2)
    have hmark : Neat [sym .pathSep, sym .lt] := (Neat.mark rfl).append (.mark rfl) (by rintro p ⟨⟩ q ⟨⟩; rfl)
    have hcallee := (Whole.name h.1).joined hgeneric hmark ((Whole.name h.1).meets_symbol rfl)
      (hgeneric.symbol_meets [sym .pathSep])
    simpa [Print.expr] using hcallee.angle.followed hargs rfl
  | _, .listSelect _ _ _, h | _, .memberSelect _ _ _ _, h => h.elim

theorem Expr.AllSpellable.printed : ∀ es : List Expr, Expr.AllSpellable es → ∀ ps ∈ Print.exprs es, Whole ps
  | [], _ => by simp [Print.exprs]
  | e :: es, h => by
    rw [Print.exprs]
    exact List.forall_mem_cons.2 ⟨Expr.Spellable.printed .lowest e h.1, Expr.AllSpellable.printed es h.2⟩

theorem Expr.FieldsSpellable.printed :
    ∀ fs : List (Ident × Expr), Expr.FieldsSpellable fs → ∀ ps ∈ Print.fields fs, Whole ps
  | [], _ => by simp [Print.fields]
  | (_, e) :: fs, ⟨⟨hkey, he⟩, hfs⟩ => by
    rw [Print.fields]
    exact List.forall_mem_cons.2
      ⟨(Whole.name hkey).listed (Expr.Spellable.printed .lowest e he) rfl rfl, Expr.FieldsSpellable.printed fs hfs⟩

/-- **What is printed of a type that can be spelled is a phrase.** -/
theorem TypeRef.Spellable.printed : ∀ t : TypeRef, t.Spellable → Whole (Print.typeRef t)
  | .named _ _ [], h => by simpa [Print.typeRef] using Whole.name h.1
  | .named _ _ (a :: as), h => by
    have hne : Print.typeArgs (a :: as) ≠ [] := by simp [Print.typeArgs]
    have hargs := commaSeparated_whole hne (TypeArg.AllSpellable.printed (a :: as) h.2)
    simpa [Print.typeRef] using ((Whole.name h.1).marked (s := .lt) hargs rfl rfl).angle
  | .array _ elem len, h => by
    have hlen := Expr.Spellable.printed .lowest len h.2
    have hinside := (TypeRef.Spellable.printed elem h.1).listed (s := .semi) hlen rfl rfl
    simpa [Print.typeRef] using hinside.toNeat.bracketed (o := .lbracket) rfl (hinside.meets_symbol rfl)

theorem TypeArg.Spellable.printed : ∀ a : TypeArg, a.Spellable → Whole (Print.typeArg a)
  | .type t, h => by simpa [Print.typeArg] using TypeRef.Spellable.printed t h
  | .value e, h => by simpa [Print.typeArg] using Expr.Spellable.printed .sum e h

theorem TypeArg.AllSpellable.printed :
    ∀ as : List TypeArg, TypeArg.AllSpellable as → ∀ ps ∈ Print.typeArgs as, Whole ps
  | [], _ => by simp [Print.typeArgs]
  | a :: as, h => by
    rw [Print.typeArgs]
    exact List.forall_mem_cons.2 ⟨TypeArg.Spellable.printed a h.1, TypeArg.AllSpellable.printed as h.2⟩

end

/-! ## Lines of statements -/

section lines

variable {ps : List Piece}

theorem modified_whole (b : Bool) (w : Keyword) (h : Whole ps) :
    Whole ((if b then [word w, .space] else []) ++ ps) := by
  cases b
  · exact h
  · exact (Whole.word w).spaced h

theorem typeNote_whole {t : Option TypeRef} (h : Whole ps) (ht : TypeRef.Spellable? t) : Whole (ps ++ typeNote t) := by
  cases t with
  | none => simpa [typeNote] using h
  | some t => simpa [typeNote] using h.listed (s := .colon) (ht t rfl).printed rfl rfl

theorem declared_whole (m : Bool) {id : Ident} {t : Option TypeRef} (hid : IsName id.name) (ht : TypeRef.Spellable? t) :
    Whole (declared m id t) := by
  have hvariable := modified_whole m .mut (typeNote_whole (Whole.name hid) ht)
  simpa [declared] using (Whole.word .val).spaced hvariable

theorem ValDecl.Spellable.printed {d : ValDecl} (h : d.Spellable) : Whole (valDecl d) := by
  have hvalue := Expr.Spellable.printed .lowest d.expr h.expr
  simpa [valDecl] using (declared_whole d.mutable h.name h.type).operator (s := .assign) hvalue rfl

theorem TemplateParam.Spellable.printed {p : TemplateParam} (h : p.Spellable) : Whole (templateParam p) := by
  have hname := Whole.name h.name
  have hkind := h.kind
  unfold templateParam
  split
  · exact hname
  · rename_i bound hp
    rw [hp] at hkind
    simpa using hname.listed (s := .colon) (Whole.name hkind) rfl rfl
  · rename_i t hp
    rw [hp] at hkind
    have htype := TypeRef.Spellable.printed t hkind
    simpa using (Whole.word .const).spaced (hname.listed (s := .colon) htype rfl rfl)

theorem templateParams_whole {params : List TemplateParam} (h : Whole ps) (hparams : ∀ p ∈ params, p.Spellable) :
    Whole (ps ++ templateParams params) := by
  unfold templateParams
  cases params with
  | nil => simpa using h
  | cons p params =>
    have hlist : Whole (commaSeparated ((p :: params).map templateParam)) :=
      commaSeparated_whole (by simp) (List.forall_mem_map.2 fun q hq => (hparams q hq).printed)
    simpa using (h.marked (s := .lt) hlist rfl rfl).angle

theorem Param.Spellable.printed {p : Param} (h : p.Spellable) : Whole (param p) := by
  have htype := modified_whole p.mutable .mut (TypeRef.Spellable.printed p.type h.type)
  simpa [param] using (Whole.name h.name).listed (s := .colon) htype rfl rfl

theorem RecordField.Spellable.printed {f : RecordField} (h : f.Spellable) : Whole (recordField f) := by
  have htype := TypeRef.Spellable.printed f.type h.type
  exact modified_whole f.hidden .priv ((Whole.name h.name).listed (s := .colon) htype rfl rfl)

theorem RecordDef.Spellable.printed {d : RecordDef} (h : d.Spellable) : Whole (recordDef d) := by
  have hname := (Whole.word .type).spaced (Whole.name h.name)
  have hrecord := hname.operator (s := .assign) (Whole.word .record) rfl
  unfold recordDef
  cases hfields : d.fields with
  | nil =>
    have hbraces : Whole [sym .lbrace, sym .rbrace] := Neat.nil.bracketed rfl (by rintro p ⟨⟩)
    simpa using hrecord.spaced hbraces
  | cons f fs =>
    have hlist : Whole (commaSeparated ((f :: fs).map recordField)) :=
      commaSeparated_whole (by simp) (List.forall_mem_map.2 fun g hg => (h.fields g (hfields ▸ hg)).printed)
    simpa using hrecord.spaced hlist.braced

theorem cellHead_fillsLine {c : CellDef} (hname : IsName c.name.name) (hparams : ∀ p ∈ c.params, p.Spellable)
    (hargs : ∀ a ∈ c.args, a.Spellable) (hret : TypeRef.Spellable? c.ret) : FillsLine (cellHead c) := by
  have hcell := (Whole.word .cell).spaced (templateParams_whole (Whole.name hname) hparams)
  have hlist : Whole (sym .lparen :: commaSeparated (c.args.map param) ++ [sym .rparen]) :=
    commaSeparated_bracketed rfl (List.forall_mem_map.2 fun a ha => (hargs a ha).printed)
  have hfront := hcell.followed hlist rfl
  unfold cellHead
  cases hc : c.ret with
  | none => simpa using hfront.colon
  | some t => simpa using (hfront.operator (s := .arrow) (TypeRef.Spellable.printed t (hret t hc)) rfl).colon

theorem init_whole {i : Option Init} (hi : Init.Spellable i) (h : Whole ps) : Whole (init i ++ ps) :=
  match i, hi with
  | none, _ => h
  | some (.val d), hd => by simpa [init] using (ValDecl.Spellable.printed hd).listed (s := .semi) h rfl rfl
  | some (.expr e), he => by simpa [init] using (Expr.Spellable.printed .lowest e he).listed (s := .semi) h rfl rfl

theorem expansionHead_fillsLine {x : Expansion} (hinit : Init.Spellable x.init) (hvar : x.var.Spellable)
    (hrange : x.range.Spellable) : FillsLine (expansionHead x) := by
  have hvariable := init_whole hinit (declared_whole x.var.mutable hvar.name hvar.type)
  have hfront := ((Whole.word .expand).spaced hvariable).spaced (Whole.word .inWord)
  simpa [expansionHead] using (hfront.spaced (Expr.Spellable.printed .lowest x.range hrange)).colon

end lines

end Unroll
