import PropTables.Proofs.Makes
import PropTables.Proofs.Spells

/-! Types as they are written are read as trees of these types, construct by construct. -/

namespace PropTables

open List (Forall₂)
open Phrase (Spells Shows call many maybe mark)
open Following (free quiet)
open Spelling

section Texts

variable {t : List Char} {ws : List Word}

theorem Open.closedBy {m : Mark} (h : Open t ws)
    (hm : m ∈ [.closeParen, .closeBracket, .greater, .colon, .question]) :
    Closed (t ++ m.spelling.toList) (ws ++ [m.word]) := by
  have hclosed : Closed m.spelling.toList [m.word] := by
    refine .anyMark ?_
    revert hm
    cases m <;> decide
  obtain ⟨c, u, hcu, hc⟩ : ∃ c u, m.spelling.toList = c :: u ∧ c ∈ stoppers := by
    simp only [List.mem_cons, List.not_mem_nil, or_false] at hm
    rcases hm with rfl | rfl | rfl | rfl | rfl <;> exact ⟨_, _, rfl, by decide⟩
  rw [hcu] at hclosed ⊢
  exact h.append_closed hc hclosed

theorem Closed.label {k : Terminal} {text : String} (hk : k.isValue = true) (h : IsToken k text)
    (optional : Bool) : Closed (label (some text) optional).toList
      ((k, text) :: ((if optional then [Mark.question.word] else []) ++ [Mark.colon.word])) := by
  have hcolon {t : List Char} {ws : List Word} (h : Open t ws) :
      Closed (t ++ ": ".toList) (ws ++ [Mark.colon.word]) := by
    have hblank := (h.closedBy (m := .colon) (by decide)).append (.blank (b := ' ') rfl)
    rw [List.append_nil, List.append_assoc] at hblank
    exact hblank
  have htext := Open.token hk h
  cases optional with
  | false =>
    rw [PropTables.label, String.toList_append]
    exact hcolon htext
  | true =>
    have hquestion := hcolon (htext.closedBy (m := .question) (by decide)).open
    rw [List.append_assoc] at hquestion
    rw [PropTables.label, String.toList_append]
    exact hquestion

end Texts

namespace Construct

variable {F G : Following} {ws vs : List Word} {P : TypeTree → Prop}

section Levels

theorem spells_array (h : Spells F (call primary) ws P) : Spells F (call array) ws P :=
  .call (.orLeft h) fun _ _ => trivial

theorem spells_nullable (h : Spells F (call array) ws P) : Spells F (call nullable) ws P :=
  .call (.orRight h) fun _ _ => trivial

def joinedBy (m : Mark) (operand : Construct TypeTree)
    (build : Position → List TypeExpr → TypeExpr) : Clause TypeTree :=
  (fun p => TypeTree.joined build p.1.start p.2)
    <$> Phrase.spanned (List.cons <$> (maybe (mark m) *> call operand)
      <*> many (mark m *> call operand))

variable {m : Mark} {operand : Construct TypeTree} (build : Position → List TypeExpr → TypeExpr)

theorem spells_joined {Q : List TypeTree → Prop} (h : Spells G (call operand) ws P)
    (hs : Spells F (many (mark m *> call operand)) vs Q) (hG : ∀ us, F us → G (vs ++ us)) :
    Spells F (joinedBy m operand build) (ws ++ vs)
      (fun v => ∃ p x xs, P x ∧ Q xs ∧ v = TypeTree.joined build p (x :: xs)) := by
  have hfirst := (Spells.maybeNone (a := mark m)).seqRight h
  refine (((hfirst.map (f := List.cons)).seqBefore hs hG).spanned.map).mono ?_
  rintro _ ⟨⟨e, _⟩, ⟨_, xs, ⟨x, hx, rfl⟩, hxs, rfl⟩, rfl⟩
  exact ⟨e.start, x, xs, hx, hxs, rfl⟩

theorem spells_single (h : Spells F (call operand) ws P) :
    Spells F (joinedBy m operand build) ws P := by
  have hnone : Spells F (many (mark m *> call operand)) [] (· = []) :=
    fun c _ _ hc => ⟨c, [], .nil, hc, rfl⟩
  have hjoined := spells_joined build h hnone fun _ hus => hus
  rw [List.append_nil] at hjoined
  refine hjoined.mono ?_
  rintro _ ⟨p, x, _, hx, rfl, rfl⟩
  exact hx

theorem spells_intersection (h : Spells F (call nullable) ws P) :
    Spells F (call intersection) ws P :=
  .call (n := intersection) (spells_single (m := .ampersand) .intersection h) fun _ _ => trivial

theorem spells_type_of_union (h : Spells F (call union) ws P) : Spells F (call type) ws P :=
  .call (n := type) h fun _ _ => trivial

theorem spells_type_of_intersection (h : Spells F (call intersection) ws P) :
    Spells F (call type) ws P :=
  spells_type_of_union (.call (n := union) (spells_single (m := .bar) .union h) fun _ _ => trivial)

theorem spells_type (h : Spells F (call array) ws P) : Spells F (call type) ws P :=
  spells_type_of_intersection (spells_intersection (spells_nullable h))

end Levels

section Primaries

variable {names : CharacterNames} {start : Position} {t r : TypeExpr} {ts : List TypeExpr}
  {ps : List (FunctionParam TypeExpr)}

theorem shows_string {raw : String} {value : Text} (h : IsToken .string raw)
    (hv : Text.ofLiteral? names raw = some value) :
    Shows free (call primary) raw.toList (TypeTree.Of names (.string start value raw)) := by
  refine ⟨[(.string, raw)], .token rfl h, ?_⟩
  have hstring : Spells free string [(.string, raw)] _ := .token (List.mem_singleton_self _)
  refine .call (.orRight (.orRight (.orRight (.orRight (.orRight (.orLeft
    (hstring.map.mono ?_))))))) fun _ _ => trivial
  rintro _ ⟨token, htoken, rfl⟩
  obtain rfl : token.text = raw := congrArg Prod.snd htoken
  exact TypeTree.of_string hv

theorem shows_number {raw : String} {value : Number} (h : IsToken .number raw)
    (hv : Number.ofLiteral? raw = some value) :
    Shows free (call primary) raw.toList (TypeTree.Of names (.number start value raw)) := by
  refine ⟨[(.number, raw)], .token rfl h, ?_⟩
  have hnumber : Spells free (.token [.number]) [(Terminal.number, raw)] _ :=
    .token (List.mem_singleton_self _)
  refine .call (.orRight (.orRight (.orRight (.orRight (.orRight (.orRight
    (hnumber.map.mono ?_))))))) fun _ _ => trivial
  rintro _ ⟨token, htoken, rfl⟩
  obtain rfl : token.text = raw := congrArg Prod.snd htoken
  exact TypeTree.of_number hv

theorem spells_reference {n : String} {path : List String} {Q : Option (List TypeTree) → Prop}
    (hargs : Spells free (maybe (call typeArgs)) vs Q)
    (hP : ∀ token tokens args, token.text = n → tokens.map Token.text = path → Q args →
      P ⟨token.start, TypeTree.buildReference token tokens args⟩) :
    Spells free (call primary)
      ((.name, n) :: (path.flatMap fun p => [Mark.dot.word, (.name, p)]) ++ vs) P := by
  have hname (p : String) : Spells free identifier [(.name, p)] (·.word = (.name, p)) :=
    .token (List.mem_singleton_self _)
  have hpath : Spells free (many (mark .dot *> identifier)) _
      (Forall₂ (fun p token => token.word = (.name, p)) path) :=
    .many fun p _ => (Spells.mark .dot).seqRight (hname p)
  have hall := (((hname n).map (f := fun n path args =>
    (⟨n.start, TypeTree.buildReference n path args⟩ : TypeTree))).seq hpath).seq hargs
  refine .call (.orLeft (.call (n := genericType) (hall.mono ?_) fun _ _ => trivial))
    fun _ _ => trivial
  rintro _ ⟨_, args, ⟨_, tokens, ⟨token, htoken, rfl⟩, htokens, rfl⟩, hargs, rfl⟩
  refine hP token tokens args (congrArg Prod.snd htoken) ?_ hargs
  have htexts : Forall₂ (· = ·) path (tokens.map Token.text) :=
    List.forall₂_map_right_iff.2 (htokens.imp fun _ _ h => (congrArg Prod.snd h).symm)
  rw [List.forall₂_eq_eq_eq] at htexts
  exact htexts.symm

theorem shows_name {n : String} (hn : IsToken .name n)
    (hP : ∀ token : Token, token.text = n → P ⟨token.start, TypeTree.buildReference token [] none⟩) :
    Shows free (call primary) n.toList P := by
  have hspells : Spells free (call primary) ((.name, n) ::
      ([].flatMap fun p => [Mark.dot.word, (.name, p)]) ++ []) P := by
    refine spells_reference .maybeNone ?_
    rintro token _ _ hn hpath rfl
    rw [List.map_eq_nil_iff.1 hpath]
    exact hP token hn
  exact ⟨_, .token rfl hn, hspells⟩

theorem shows_builtin {n : String} (hn : IsToken .name n)
    (h : TypeExpr.builtin? start n = some t) :
    Shows free (call primary) n.toList (TypeTree.Of names t) :=
  shows_name hn fun _ htoken => TypeTree.of_builtin (htoken.symm ▸ h)

theorem shows_arguments
    (h : ∀ t ∈ ts, Shows quiet (call type) t.print.toList (TypeTree.Of names t)) :
    ∃ ws, Stops (argumentsText (ts.map TypeExpr.print)).toList ∧
      Open (argumentsText (ts.map TypeExpr.print)).toList ws ∧
      Spells free (maybe (call typeArgs)) ws
        (fun args => Forall₂ (TypeTree.Of names) ts (args.getD [])) := by
  by_cases hts : ts = []
  · subst hts
    refine ⟨[], nofun, Closed.nil.open, Spells.maybeNone.mono ?_⟩
    rintro _ rfl
    exact .nil
  · obtain ⟨ws, hopen, hspells⟩ := Shows.list (.mark .comma) hts h
    have htext : (argumentsText (ts.map TypeExpr.print)).toList = Mark.less.spelling.toList ++
        ((commas (ts.map TypeExpr.print)).toList ++ Mark.greater.spelling.toList) := by
      rw [argumentsText, if_neg (by simpa using hts), String.toList_append, String.toList_append,
        List.append_assoc]
      rfl
    have hclosed := (Closed.anyMark (m := .less) (by decide)).append
      (hopen.closedBy (m := .greater) (by decide))
    have hargs := (Spells.call (n := typeArgs) (((Spells.mark .less).seqRight hspells).closed
      (F := free) (m := .greater) (by decide)) fun _ _ => trivial).maybeSome
    rw [htext]
    refine ⟨_, ?_, hclosed.open, hargs.mono ?_⟩
    · rintro _ ⟨⟩
      decide
    · rintro _ ⟨args, hargs, rfl⟩
      exact hargs

theorem shows_reference {qs : List String} {name : String} (hqs : ∀ q ∈ qs, IsToken .name q)
    (hname : IsToken .name name) (hbare : qs = [] → ts = [] → TypeExpr.builtin? start name = none)
    (h : ∀ t ∈ ts, Shows quiet (call type) t.print.toList (TypeTree.Of names t)) :
    Shows free (call primary) (TypeExpr.reference start qs name ts).print.toList
      (TypeTree.Of names (.reference start qs name ts)) := by
  obtain ⟨n, path, hpath⟩ : ∃ n path, qs ++ [name] = n :: path :=
    List.exists_cons_of_ne_nil (by simp)
  have hnames : ∀ p ∈ n :: path, IsToken .name p := by
    intro p hp
    rw [← hpath, List.mem_append, List.mem_singleton] at hp
    rcases hp with hp | rfl
    · exact hqs p hp
    · exact hname
  obtain ⟨hn, hrest⟩ := List.forall_mem_cons.1 hnames
  obtain ⟨vs, hstops, hopen, hspells⟩ := shows_arguments h
  refine ⟨(.name, n) :: (path.flatMap fun p => [Mark.dot.word, (.name, p)]) ++ vs, ?_, ?_⟩
  · rw [TypeExpr.print_reference, hpath, String.toList_append, intercalate_cons]
    exact (Open.path hn hrest).append hstops hopen
  · refine spells_reference hspells fun token tokens args hn htokens hargs => ?_
    refine TypeTree.of_reference ?_ hargs hbare
    rw [List.map_cons, hn, htokens, ← hpath]

theorem shows_tuple (h : ∀ t ∈ ts, Shows quiet (call type) t.print.toList (TypeTree.Of names t)) :
    Shows free (call primary) (TypeExpr.tuple start ts).print.toList
      (TypeTree.Of names (.tuple start ts)) := by
  obtain ⟨ws, hopen, hspells⟩ := Shows.listOrNone (.mark .comma) h
  refine ⟨Mark.openBracket.word :: (ws ++ [Mark.closeBracket.word]), ?_, ?_⟩
  · rw [TypeExpr.print_tuple, String.toList_append, String.toList_append, List.append_assoc]
    exact ((Closed.anyMark (m := .openBracket) (by decide)).append
      (hopen.closedBy (m := .closeBracket) (by decide))).open
  · have hall := (((Spells.mark .openBracket).map
      (f := fun t elements => (⟨t.start,
        return .tuple t.start (← elements.mapM TypeTree.build)⟩ : TypeTree))).seq hspells).closed
          (F := free) (m := .closeBracket) (by decide)
    refine .call (.orRight (.orRight (.orRight (.orLeft
      (.call (n := tupleType) (hall.mono ?_) fun _ _ => trivial))))) fun _ _ => trivial
    rintro _ ⟨_, elements, ⟨token, -, rfl⟩, helements, rfl⟩
    exact TypeTree.of_tuple helements

end Primaries

section Parentheses

variable {names : CharacterNames} {start : Position} {t r : TypeExpr}
  {ps : List (FunctionParam TypeExpr)}

theorem shows_bare (h : Shows quiet (call type) s P) :
    Shows quiet (call functionParam) s (fun f => ∃ v, P v ∧ f = .bare v) := by
  obtain ⟨ws, hopen, hspells⟩ := h
  exact ⟨ws, hopen, .call (.orRight (.orRight hspells.map)) fun _ _ => trivial⟩

theorem shows_params {ι : Type} {text : ι → String} {items : List ι}
    {P : ι → FunctionParamTree → Prop}
    (h : ∀ x ∈ items, Shows quiet (call functionParam) (text x).toList (P x)) :
    Shows quiet (orNone (call functionParams)) (commas (items.map text)).toList
      (Forall₂ P items) := by
  refine .orNone fun hne => ?_
  obtain ⟨ws, hopen, hspells⟩ := Shows.list (.mark .comma) hne h
  exact ⟨ws, hopen, .call (n := functionParams) hspells fun _ _ => trivial⟩

theorem spells_parenType {F : Following} {ws vs : List Word} {Q : List FunctionParamTree → Prop}
    {R : Option TypeTree → Prop} (hparams : Spells quiet (orNone (call functionParams)) ws Q)
    (hresult : Spells F (maybe (mark .arrow *> call arrowResult)) vs R) :
    Spells F (call primary) (Mark.openParen.word :: (ws ++ [Mark.closeParen.word]) ++ vs)
      (fun v => ∃ p params result, Q params ∧ R result ∧
        v = TypeTree.parenthesised p params result) := by
  have hall := ((((Spells.mark .openParen).map
    (f := fun t params result => TypeTree.parenthesised t.start params result)).seq
      hparams).closed (F := free) (m := .closeParen) (by decide)).seq hresult
  refine .call (.orRight (.orRight (.orRight (.orRight (.orLeft
    (.call (n := parenType) (hall.mono ?_) fun _ _ => trivial)))))) fun _ _ => trivial
  rintro _ ⟨_, result, ⟨_, params, ⟨token, -, rfl⟩, hparams, rfl⟩, hresult, rfl⟩
  exact ⟨token.start, params, result, hparams, hresult, rfl⟩

theorem closed_parens {s : List Char} {ws : List Word} (h : Open s ws) :
    Closed ("(".toList ++ (s ++ ")".toList)) (Mark.openParen.word :: (ws ++ [Mark.closeParen.word])) :=
  (Closed.anyMark (m := .openParen) (by decide)).append (h.closedBy (m := .closeParen) (by decide))

theorem shows_parens (h : Shows quiet (call type) t.print.toList (TypeTree.Of names t)) :
    Shows free (call primary) ("(" ++ t.print ++ ")").toList (TypeTree.Of names t) := by
  have hparams : Shows quiet (orNone (call functionParams)) (commas ([t].map TypeExpr.print)).toList
      (Forall₂ (fun t f => ∃ v, TypeTree.Of names t v ∧ f = .bare v) [t]) :=
    shows_params fun x hx => by
      rw [List.mem_singleton.1 hx]
      exact shows_bare h
  obtain ⟨ws, hopen, hspells⟩ := hparams
  refine ⟨Mark.openParen.word :: (ws ++ [Mark.closeParen.word]) ++ [], ?_, ?_⟩
  · rw [String.toList_append, String.toList_append, List.append_assoc, List.append_nil]
    exact (closed_parens hopen).open
  · refine (spells_parenType hspells .maybeNone).mono ?_
    rintro _ ⟨p, params, _, hparams, rfl, rfl⟩
    obtain ⟨_, _, ⟨v, hv, rfl⟩, hnil, rfl⟩ := List.forall₂_cons_left_iff.1 hparams
    cases hnil
    exact hv.inParens

theorem shows_function
    (hps : ∀ p ∈ ps, Shows quiet (call functionParam) p.print.toList (FunctionParamTree.Of names p))
    (hr : Shows quiet (call type) r.print.toList (TypeTree.Of names r)) :
    Shows quiet (call type) (TypeExpr.function start ps r).print.toList
      (TypeTree.Of names (.function start ps r)) := by
  obtain ⟨ws, hopen, hparams⟩ := shows_params hps
  obtain ⟨vs, hresult, hr⟩ := hr
  refine ⟨Mark.openParen.word :: (ws ++ [Mark.closeParen.word]) ++ Mark.arrow.word :: vs, ?_, ?_⟩
  · have hhead : Closed (" ".toList ++ (Mark.arrow.spelling.toList ++ [' '])) [Mark.arrow.word] :=
      .blank_cons rfl (.mark_blank .arrow)
    have hall := ((closed_parens hopen).append hhead).append_open hresult
    have htext : (TypeExpr.function start ps r).print.toList = "(".toList ++
        ((commas (ps.map FunctionParam.print)).toList ++ ")".toList) ++
        (" ".toList ++ (Mark.arrow.spelling.toList ++ [' '])) ++ r.print.toList := by
      rw [TypeExpr.print_function]
      simp [Mark.spelling]
    rw [htext]
    simpa using hall
  · have hend (ts : List Token) (h : quiet (ts.map Token.word)) : greedy arrowResult ts :=
      fun t ht => h t.word (by rw [List.head?_map, Option.mem_def.1 ht]; rfl)
    have harrow := (Spells.mark .arrow).seqRight (.call (n := arrowResult) hr hend)
    refine spells_type (spells_array ((spells_parenType hparams harrow.maybeSome).mono ?_))
    rintro _ ⟨p, params, _, hparams, ⟨v, hv, rfl⟩, rfl⟩
    exact TypeTree.of_function hparams hv

end Parentheses

section Operations

variable {names : CharacterNames} {start : Position} {t : TypeExpr} {ts : List TypeExpr}

theorem shows_nullable (h : Shows free (call array) t.printOperand.toList (TypeTree.Of names t)) :
    Shows quiet (call type) (TypeExpr.nullable start t).print.toList
      (TypeTree.Of names (.nullable start t)) := by
  obtain ⟨ws, hopen, hspells⟩ := h
  refine ⟨Mark.question.word :: ws, ?_, ?_⟩
  · rw [TypeExpr.print, String.toList_append]
    exact (Closed.anyMark (m := .question) (by decide)).append_open hopen
  · have hall := ((Spells.mark .question).map (f := fun q t => TypeTree.nullable q.start t)).seq
      (spells_nullable (hspells.before (F := quiet) fun _ _ => trivial))
    refine spells_type_of_intersection (spells_intersection
      (.call (.orLeft (hall.mono ?_)) fun _ _ => trivial))
    rintro _ ⟨_, v, ⟨_, -, rfl⟩, hv, rfl⟩
    exact TypeTree.of_nullable hv

theorem shows_array (h : Shows free (call array) t.printOperand.toList (TypeTree.Of names t)) :
    Shows free (call array) (TypeExpr.array start t).print.toList
      (TypeTree.Of names (.array start t)) := by
  obtain ⟨ws, hopen, hspells⟩ := h
  refine ⟨ws ++ [Mark.openBracket.word] ++ [Mark.closeBracket.word], ?_, ?_⟩
  · have hbrackets : Closed "[]".toList ([Mark.openBracket.word] ++ [Mark.closeBracket.word]) :=
      (Closed.anyMark (m := .openBracket) (by decide)).append
        (.anyMark (m := .closeBracket) (by decide))
    rw [TypeExpr.print, String.toList_append, List.append_assoc]
    exact (hopen.append_closed (by decide) hbrackets).open
  · have hall := ((hspells.map (f := TypeTree.array)).seqLeft (.mark .openBracket)).seqLeft
      (.mark (F := free) .closeBracket)
    refine .call (.orRight (hall.mono ?_)) fun _ _ => trivial
    rintro _ ⟨v, hv, rfl⟩
    exact TypeTree.of_array hv

theorem shows_intersection (hlen : 2 ≤ ts.length)
    (h : ∀ t ∈ ts, Shows free (call array) t.printOperand.toList (TypeTree.Of names t)) :
    Shows quiet (call type) (TypeExpr.intersection start ts).print.toList
      (TypeTree.Of names (.intersection start ts)) := by
  obtain ⟨t, ts, rfl⟩ := List.exists_cons_of_length_pos (Nat.lt_of_lt_of_le Nat.two_pos hlen)
  obtain ⟨ws, vs, hopen, hfirst, hrest⟩ := Shows.operands (m := .ampersand) (a := call nullable)
    fun y hy => (h y hy).imp fun _ h => ⟨h.1, spells_nullable h.2⟩
  rw [TypeExpr.print_intersection]
  refine ⟨ws ++ vs, hopen, spells_type_of_intersection ?_⟩
  have hall := spells_joined (F := quiet) .intersection hfirst
    (hrest.before fun _ _ => trivial) fun _ _ => trivial
  refine .call (n := intersection) (hall.mono ?_) fun _ _ => trivial
  rintro _ ⟨p, x, xs, hx, hxs, rfl⟩
  exact TypeTree.of_joined (fun p q xs ys hxs => by
    rw [TypeExpr.plain_intersection, TypeExpr.plain_intersection, hxs]) hlen (.cons hx hxs)

theorem shows_union (hlen : 2 ≤ ts.length)
    (h : ∀ t ∈ ts, Shows free (call array) t.printOperand.toList (TypeTree.Of names t)) :
    Shows quiet (call type) (TypeExpr.union start ts).print.toList
      (TypeTree.Of names (.union start ts)) := by
  obtain ⟨t, ts, rfl⟩ := List.exists_cons_of_length_pos (Nat.lt_of_lt_of_le Nat.two_pos hlen)
  obtain ⟨ws, vs, hopen, hfirst, hrest⟩ := Shows.operands (m := .bar) (a := call intersection)
    fun y hy => (h y hy).imp fun _ h => ⟨h.1, spells_intersection (spells_nullable h.2)⟩
  rw [TypeExpr.print_union]
  refine ⟨ws ++ vs, hopen, spells_type_of_union ?_⟩
  have hall := spells_joined (F := quiet) .union hfirst
    (hrest.before fun _ _ => trivial) fun _ _ => trivial
  refine .call (n := union) (hall.mono ?_) fun _ _ => trivial
  rintro _ ⟨p, x, xs, hx, hxs, rfl⟩
  exact TypeTree.of_joined (fun p q xs ys hxs => by
    rw [TypeExpr.plain_union, TypeExpr.plain_union, hxs]) hlen (.cons hx hxs)

end Operations

end Construct

end PropTables
