import PropTables.Proofs.TypePhrases

/-! Parameters and members of object types as they are written are read as trees of them. -/

namespace PropTables

open List (Forall₂)
open Phrase (Spells Shows call many maybe mark)
open Following (free quiet)
open Spelling

namespace Construct

variable {names : CharacterNames} {F : Following} {ws : List Word} {P : TypeTree → Prop}

section Members

variable {ps : List (FunctionParam TypeExpr)} {r : TypeExpr}

theorem spells_optional (optional : Bool) : Spells F (Phrase.present (mark .question))
    (if optional then [Mark.question.word] else []) (· = optional) := by
  cases optional with
  | false => exact .absent
  | true => exact .present (.mark .question)

theorem shows_label {name : Option String} (h : ∀ n ∈ name, IsToken .name n) :
    ∃ vs, Closed (PropTables.label name false).toList vs ∧
      Spells free label vs (fun o => o.map Token.text = name) := by
  cases name with
  | none =>
    refine ⟨[], .nil, Spells.maybeNone.mono ?_⟩
    rintro _ rfl
    rfl
  | some n =>
    have hname : Spells free identifier [(.name, n)] (·.word = (.name, n)) :=
      .token (List.mem_singleton_self _)
    refine ⟨_, .label rfl (h n rfl) false,
      (hname.seqLeft (.mark .colon)).maybeSome.mono ?_⟩
    rintro _ ⟨token, htoken, rfl⟩
    exact congrArg (some ∘ Prod.snd) htoken

theorem spells_typed (h : Spells F (call type) ws P) : Spells F typed (Mark.colon.word :: ws) P :=
  (Spells.mark .colon).seqRight h

variable {loc : Position} {name : Option String} {type : TypeExpr} {optional : Bool}

theorem shows_restParam (hname : ∀ n ∈ name, IsToken .name n)
    (h : Shows quiet (call .type) type.print.toList (TypeTree.Of names type)) :
    Shows quiet (call functionParam) (FunctionParam.mk loc name type false true).print.toList
      (FunctionParamTree.Of names ⟨loc, name, type, false, true⟩) := by
  obtain ⟨ws, hopen, hspells⟩ := h
  obtain ⟨vs, hlabel, hname⟩ := shows_label hname
  refine ⟨Mark.ellipsis.word :: (vs ++ ws), ?_, ?_⟩
  · rw [FunctionParam.print, FunctionParam.text, if_pos rfl, String.append_assoc,
      String.toList_append, String.toList_append]
    exact (Closed.anyMark (m := .ellipsis) (by decide)).append_open (hlabel.append_open hopen)
  · have hall := ((((Spells.mark .ellipsis).seqRight hname).map (f := fun n type loc =>
      (⟨loc, n, type, false, true⟩ : FunctionParamTree))).seq hspells).spanned
    refine .call (.orRight (.orLeft (.call (n := restFunctionParam) (hall.map.mono ?_)
      fun _ _ => trivial))) fun _ _ => trivial
    rintro _ ⟨e, ⟨_, v, ⟨n, hn, rfl⟩, hv, he⟩, rfl⟩
    rw [he]
    exact FunctionParamTree.of_type hn hv rfl rfl

theorem shows_namedParam {n : String} (hn : IsToken .name n)
    (h : Shows quiet (call .type) type.print.toList (TypeTree.Of names type)) :
    Shows quiet (call functionParam)
      (FunctionParam.mk loc (some n) type optional false).print.toList
      (FunctionParamTree.Of names ⟨loc, some n, type, optional, false⟩) := by
  obtain ⟨ws, hopen, hspells⟩ := h
  have hname : Spells free identifier [(.name, n)] (·.word = (.name, n)) :=
    .token (List.mem_singleton_self _)
  have hall := (((hname.map (f := fun n optional type loc =>
    (⟨loc, some n, type, optional, false⟩ : FunctionParamTree))).seq
      (spells_optional optional)).seq (spells_typed hspells)).spanned
  refine ⟨_, ?_, .call (.orLeft (.call (n := namedFunctionParam) (hall.map.mono ?_)
    fun _ _ => trivial)) fun _ _ => trivial⟩
  · rw [FunctionParam.print, FunctionParam.text, if_neg Bool.false_ne_true, String.empty_append,
      String.toList_append]
    simpa using (Closed.label rfl hn optional).append_open hopen
  · rintro _ ⟨e, ⟨_, v, ⟨_, _, ⟨token, htoken, rfl⟩, rfl, rfl⟩, hv, he⟩, rfl⟩
    rw [he]
    exact FunctionParamTree.of_type (congrArg (some ∘ Prod.snd) htoken) hv rfl rfl

theorem shows_param {p : FunctionParam TypeExpr} (hp : p.Spelled)
    (h : Shows quiet (call .type) p.type.print.toList (TypeTree.Of names p.type)) :
    Shows quiet (call functionParam) p.print.toList (FunctionParamTree.Of names p) := by
  obtain ⟨loc, name, type, optional, rest⟩ := p
  have hoptional : name = none ∨ rest = true → optional = false := by
    intro hnone
    by_contra hoptional
    obtain ⟨hsome, hrest⟩ := hp.optional (by simpa using hoptional)
    rcases hnone with rfl | rfl
    · cases hsome
    · cases hrest
  cases rest with
  | true =>
    obtain rfl := hoptional (.inr rfl)
    exact shows_restParam hp.name h
  | false =>
    cases name with
    | some n => exact shows_namedParam (hp.name n rfl) h
    | none =>
      obtain rfl := hoptional (.inl rfl)
      refine (shows_bare h).mono ?_
      rintro _ ⟨v, hv, rfl⟩
      exact FunctionParamTree.of_type rfl hv rfl rfl

theorem exists_key {q : Property TypeExpr} (hq : q.Spelled names) :
    ∃ k : Terminal, k.isValue = true ∧ IsToken k q.written ∧
      Spells free (call objectKey) [(k, q.written)] (fun key =>
        (Build.keyText key).Makes names q.key ∧ key.text = q.written ∧ (key.terminal = .string) = (q.quoted = true)) := by
  cases hquoted : q.quoted with
  | true =>
    obtain ⟨htoken, hvalue⟩ := hq.quoted hquoted
    have hkey : Spells free string [(.string, q.written)] (·.word = (.string, q.written)) :=
      .token (List.mem_singleton_self _)
    refine ⟨.string, rfl, htoken, .call (.orRight (hkey.mono ?_)) fun _ _ => trivial⟩
    intro key hkey
    obtain ⟨hterminal, htext⟩ := Prod.mk.inj hkey
    refine ⟨?_, htext, by simp [hterminal]⟩
    rw [Build.keyText, if_pos hterminal]
    exact Build.stringValue_makes (htext.symm ▸ hvalue)
  | false =>
    obtain ⟨⟨k, hk, htoken⟩, hvalue⟩ := hq.bare hquoted
    have hword : k ∈ Language.words := by
      cases k with
      | name => exact List.mem_cons_self
      | keyword w => exact List.mem_cons_of_mem _ (List.mem_map_of_mem (by cases w <;> decide))
      | _ => cases hk
    have hname : Spells free (.token Language.words) [(k, q.written)] (·.word = (k, q.written)) :=
      .token hword
    refine ⟨k, Terminal.isValue_of_isWord hk, htoken,
      .call (.orLeft (.call (n := Construct.name) (hname.mono ?_) fun _ _ => trivial))
        fun _ _ => trivial⟩
    intro key hkey
    obtain ⟨hterminal, htext⟩ := Prod.mk.inj hkey
    have hne : key.terminal ≠ .string := by
      rintro hstring
      rw [← hterminal, hstring] at hk
      cases hk
    refine ⟨?_, htext, by simp [hne]⟩
    rw [Build.keyText, if_neg hne]
    exact .pure (by rw [htext, hvalue])

theorem shows_property {q : Property TypeExpr} (hq : q.Spelled names)
    (h : Shows quiet (call .type) q.value.print.toList (TypeTree.Of names q.value)) :
    Shows quiet (call objectMember) (Member.property q).print.toList
      (MemberTree.Of names (.member (.property q))) := by
  obtain ⟨ws, hopen, hspells⟩ := h
  obtain ⟨k, hk, htoken, hkey⟩ := exists_key hq
  have hall := ((hkey.map (f := MemberTree.property)).seq (spells_optional q.optional)).seq
    (spells_typed hspells)
  refine ⟨_, ?_, .call (.orLeft (.call (n := objectProperty) (hall.mono ?_) fun _ _ => trivial))
    fun _ _ => trivial⟩
  · rw [Member.print, Property.text, String.toList_append]
    simpa using (Closed.label hk htoken q.optional).append_open hopen
  · rintro _ ⟨_, v, ⟨_, _, ⟨key, ⟨hkey, htext, hquoted⟩, rfl⟩, rfl, rfl⟩, hv, rfl⟩
    exact MemberTree.of_property hkey htext hquoted hv

theorem shows_spread {u : Spread TypeExpr}
    (h : Shows quiet (call .type) u.argument.print.toList (TypeTree.Of names u.argument)) :
    Shows quiet (call objectMember) (Member.spread u).print.toList
      (MemberTree.Of names (.member (.spread u))) := by
  obtain ⟨ws, hopen, hspells⟩ := h
  have hall := ((Spells.mark .ellipsis).seqRight hspells).map (f := MemberTree.spread)
  refine ⟨_, ?_, .call (.orRight (.orRight (.orLeft (.call (n := spreadProperty) (hall.mono ?_)
    fun _ _ => trivial)))) fun _ _ => trivial⟩
  · rw [Member.print, String.toList_append]
    exact (Closed.anyMark (m := .ellipsis) (by decide)).append_open hopen
  · rintro _ ⟨v, hv, rfl⟩
    exact MemberTree.of_spread hv

theorem shows_indexer {i : Indexer TypeExpr} (hname : ∀ n ∈ i.name, IsToken .name n)
    (hk : Shows quiet (call .type) i.key.print.toList (TypeTree.Of names i.key))
    (hv : Shows quiet (call .type) i.value.print.toList (TypeTree.Of names i.value)) :
    Shows quiet (call objectMember) i.print.toList (MemberTree.Of names (.indexer i)) := by
  obtain ⟨ks, hkey, hk⟩ := hk
  obtain ⟨vs, hvalue, hv⟩ := hv
  obtain ⟨ns, hlabel, hname⟩ := shows_label hname
  have hall := ((((Spells.mark .openBracket).seqRight hname).map (f := MemberTree.indexer)).seq
    (hk.closed (F := free) (m := .closeBracket) (by decide))).seq (spells_typed hv)
  refine ⟨_, ?_, .call (.orRight (.orRight (.orRight (.orLeft (.call (n := objectIndexer)
    (hall.mono ?_) fun _ _ => trivial))))) fun _ _ => trivial⟩
  · have htext := (((Closed.anyMark (m := .openBracket) (by decide)).append hlabel).append
      ((hkey.closedBy (m := .closeBracket) (by decide)).append (.mark_blank .colon))).append_open
        hvalue
    simpa [Indexer.print, Indexer.text, Mark.spelling] using htext
  · rintro _ ⟨_, v, ⟨_, k, ⟨n, hn, rfl⟩, hk, rfl⟩, hv, rfl⟩
    exact MemberTree.of_indexer hn hk hv

theorem shows_call {k : CallSignature TypeExpr}
    (hps : ∀ p ∈ k.params,
      Shows quiet (call functionParam) p.print.toList (FunctionParamTree.Of names p))
    (hr : Shows quiet (call .type) k.result.print.toList (TypeTree.Of names k.result)) :
    Shows quiet (call objectMember) k.print.toList (MemberTree.Of names (.call k)) := by
  obtain ⟨ws, hopen, hparams⟩ := shows_params hps
  obtain ⟨vs, hresult, hr⟩ := hr
  have hall := ((((Spells.mark .openParen).seqRight hparams).closed (F := free) (m := .closeParen)
    (by decide)).map (f := MemberTree.call)).seq (spells_typed hr)
  refine ⟨_, ?_, .call (.orRight (.orRight (.orRight (.orRight (.call (n := callProperty)
    (hall.mono ?_) fun _ _ => trivial))))) fun _ _ => trivial⟩
  · have htext := ((closed_parens hopen).append (.mark_blank .colon)).append_open hresult
    simpa [CallSignature.print, CallSignature.text, Mark.spelling] using htext
  · rintro _ ⟨_, v, ⟨params, hparams, rfl⟩, hv, rfl⟩
    exact MemberTree.of_call hparams hv

end Members

section Objects

theorem shows_braces {ι : Type} {text : ι → String} {items : List ι} {P : ι → MemberTree → Prop}
    {l r : Mark} (hr : r ∈ [.closeBrace, .closeExact])
    (h : ∀ x ∈ items, Shows quiet (call objectMember) (text x).toList (P x)) :
    Shows free (Phrase.spanned (mark l *> orNone (call objectMembers) <* mark r))
      (l.spelling ++ " " ++ commas (items.map text) ++ " " ++ r.spelling).toList
      (fun p => Forall₂ (fun x m => P x m.2) items p.2) := by
  have hseparator : Spells free (call memberSeparator) [Mark.comma.word] (·.word = Mark.comma.word) :=
    .call (.token List.mem_cons_self) fun _ _ => trivial
  have hmembers : Shows quiet (orNone (call objectMembers)) (commas (items.map text)).toList
      (Forall₂ (fun x m => P x m.2) items) := by
    refine .orNone fun hne => ?_
    obtain ⟨ws, hopen, hspells⟩ := Shows.list (a := Phrase.spanned (call objectMember))
      (P := fun x m => P x m.2) hseparator hne fun x hx => (h x hx).imp fun _ h => ⟨h.1, h.2.spanned⟩
    exact ⟨ws, hopen, .call (n := objectMembers) hspells fun _ _ => trivial⟩
  obtain ⟨ws, hopen, hspells⟩ := hmembers
  have hclosed : Closed (' ' :: r.spelling.toList) [r.word] :=
    .blank_cons rfl (.anyMark (by revert hr; cases r <;> decide))
  have hmark : r ∉ [.openBracket, .ampersand, .bar] := by
    revert hr
    cases r <;> decide
  refine ⟨_, ?_, (((Spells.mark l).seqRight hspells).closed hmark).spanned⟩
  have htext := ((Closed.mark_blank l).append (hopen.append_closed (by decide) hclosed)).open
  simpa using htext

theorem shows_object {o : ObjectType TypeExpr} {text : ObjectTree.Part → String}
    (h : ∀ part ∈ o.parts,
      Shows quiet (call objectMember) (text part).toList (MemberTree.Of names part)) :
    Shows free (call primary) (o.text (o.parts.map text)).toList (TypeTree.Of names (.object o)) := by
  cases hexact : o.exact with
  | false =>
    obtain ⟨ws, hopen, hspells⟩ := shows_braces (l := .openBrace) (r := .closeBrace) (by decide) h
    refine ⟨ws, by simpa [ObjectType.text, hexact, Mark.spelling, String.append_assoc] using hopen, ?_⟩
    have hobject := hspells.map (f := fun p => (⟨p.1, false, p.2⟩ : ObjectTree))
    refine .call (.orRight (.orLeft ((Spells.call (n := objectType) hobject
      fun _ _ => trivial).map.mono ?_))) fun _ _ => trivial
    rintro _ ⟨_, ⟨p, hp, rfl⟩, rfl⟩
    exact TypeTree.of_object hexact.symm hp
  | true =>
    obtain ⟨ws, hopen, hspells⟩ := shows_braces (l := .openExact) (r := .closeExact) (by decide) h
    refine ⟨ws, by simpa [ObjectType.text, hexact, Mark.spelling, String.append_assoc] using hopen, ?_⟩
    have hobject := hspells.map (f := fun p => (⟨p.1, true, p.2⟩ : ObjectTree))
    refine .call (.orRight (.orRight (.orLeft ((Spells.call (n := exactObjectType) hobject
      fun _ _ => trivial).map.mono ?_)))) fun _ _ => trivial
    rintro _ ⟨_, ⟨p, hp, rfl⟩, rfl⟩
    exact TypeTree.of_object hexact.symm hp

end Objects

end Construct

end PropTables
