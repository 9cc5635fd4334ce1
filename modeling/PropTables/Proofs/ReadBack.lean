import PropTables.Proofs.MemberPhrases
import PropTables.Proofs.Sentences

/-! Parsing undoes printing. -/

namespace PropTables

open Construct Spelling
open Following (free quiet)
open Phrase (Spells Shows call maybe mark)

structure TypeExpr.ReadsBack (names : CharacterNames) (t : TypeExpr) : Prop where
  operand : Shows free (call .array) t.printOperand.toList (TypeTree.Of names t)
  whole : Shows quiet (call .type) t.print.toList (TypeTree.Of names t)

namespace TypeExpr.ReadsBack

variable {names : CharacterNames} {t : TypeExpr}

theorem of_array (ht : t.isLoose = false)
    (h : Shows free (call .array) t.print.toList (TypeTree.Of names t)) : t.ReadsBack names where
  operand := by
    rwa [printOperand, operandText, ht, if_neg Bool.false_ne_true]
  whole := h.imp fun _ h => ⟨h.1, spells_type (h.2.before fun _ _ => trivial)⟩

theorem of_primary (ht : t.isLoose = false)
    (h : Shows free (call primary) t.print.toList (TypeTree.Of names t)) : t.ReadsBack names :=
  of_array ht (h.imp fun _ h => ⟨h.1, spells_array h.2⟩)

theorem of_loose (ht : t.isLoose = true)
    (h : Shows quiet (call .type) t.print.toList (TypeTree.Of names t)) : t.ReadsBack names where
  operand := by
    rw [printOperand, operandText, ht, if_pos rfl]
    exact (shows_parens h).imp fun _ h => ⟨h.1, spells_array h.2⟩
  whole := h

end TypeExpr.ReadsBack

theorem Primitive.isToken (p : Primitive) : IsToken .name p.spelling := by
  cases p <;> decide

theorem Primitive.builtin {loc : Position} (p : Primitive) :
    TypeExpr.builtin? loc p.spelling = some (.primitive loc p) := by
  cases p <;> rfl

def ObjectTree.Part.print : ObjectTree.Part → String
  | member m => m.print
  | indexer i => i.print
  | call k => k.print

theorem TypeExpr.print_object_parts (o : ObjectType TypeExpr) :
    (TypeExpr.object o).print = o.text (o.parts.map ObjectTree.Part.print) := by
  rw [print_object, ObjectType.parts, List.map_append, List.map_append, List.map_map, List.map_map,
    List.map_map]
  rfl

theorem TypeExpr.Spelled.readsBack {names : CharacterNames} {t : TypeExpr} (h : t.Spelled names) :
    t.ReadsBack names := by
  -- By induction on the type: a part is read back as an operand where it stands as one, and alone
  -- where it stands between other marks.
  induction h with
  | primitive =>
    exact .of_primary rfl (shows_builtin (Primitive.isToken _) (Primitive.builtin _))
  | @boolean _ value =>
    refine .of_primary rfl ?_
    cases value with
    | false => exact shows_builtin (n := "false") (by decide) rfl
    | true => exact shows_builtin (n := "true") (by decide) rfl
  | number h hv => exact .of_primary rfl (shows_number h hv)
  | string h hv => exact .of_primary rfl (shows_string h hv)
  | nullable _ ih => exact .of_loose rfl (shows_nullable ih.operand)
  | array _ ih => exact .of_array rfl (shows_array ih.operand)
  | tuple _ ih => exact .of_primary rfl (shows_tuple fun t ht => (ih t ht).whole)
  | union hlen _ ih => exact .of_loose rfl (shows_union hlen fun t ht => (ih t ht).operand)
  | intersection hlen _ ih =>
    exact .of_loose rfl (shows_intersection hlen fun t ht => (ih t ht).operand)
  | function hps _ _ ih ihr =>
    exact .of_loose rfl
      (shows_function (fun p hp => shows_param (hps p hp) (ih p hp).whole) ihr.whole)
  | reference hqs hname hbare _ ih =>
    exact .of_primary rfl (shows_reference hqs hname hbare fun t ht => (ih t ht).whole)
  | @object o hms _ his _ _ hks _ _ ihm ihkey ihvalue ihparam ihresult =>
    refine .of_primary rfl ?_
    rw [print_object_parts]
    refine shows_object fun part hpart => ?_
    simp only [ObjectType.parts, List.mem_append, List.mem_map] at hpart
    rcases hpart with (⟨m, hm, rfl⟩ | ⟨i, hi, rfl⟩) | ⟨k, hk, rfl⟩
    · cases m with
      | property q => exact shows_property (hms _ hm) (ihm _ hm).whole
      | spread s => exact shows_spread (ihm _ hm).whole
    · exact shows_indexer (his i hi) (ihkey i hi).whole (ihvalue i hi).whole
    · exact shows_call (fun p hp => shows_param (hks k hk p hp) (ihparam k hk p hp).whole)
        (ihresult k hk).whole

section Alias

variable {names : CharacterNames} {t : TypeExpr} {x : String}

def Declares (names : CharacterNames) (x : String) (t : TypeExpr) (item : Build Item) : Prop :=
  ∀ comments, ∃ loc right,
    item.run ⟨comments, names⟩ =
        .ok (.statement (.declaration (.typeAlias ⟨loc, x, [], right⟩))) ∧
      plain right = plain t

theorem Construct.shows_alias (hx : IsToken .name x)
    (h : Shows quiet (call .type) t.print.toList (TypeTree.Of names t)) :
    Shows quiet (call item) ("type " ++ x ++ " = " ++ t.print).toList (Declares names x t) := by
  obtain ⟨ws, hopen, hspells⟩ := h
  have hword : Spells free (.keyword .typeWord) [(.keyword .typeWord, "type")] _ :=
    .token (List.mem_singleton_self _)
  have hname : Spells free identifier [(.name, x)] (·.word = (.name, x)) :=
    .token (List.mem_singleton_self _)
  have hright := (((hword.map (f := fun word n params right =>
    AliasTree.build word.start ⟨n, params, right⟩)).seq hname).seq
      ((Spells.maybeNone (F := free) (a := call typeParams)).map (f := (Option.getD · [])))).seq
        ((Spells.mark .equals).seqRight hspells)
  have halias := hright.seqLeftBefore (F := quiet) (.maybeNone (a := mark .semicolon))
    fun _ hus => hus
  have hdeclaration := (Spells.call (n := typeAlias) halias fun _ _ => trivial).map
    (f := fun a => (return .typeAlias (← a) : Build Declaration))
  have hitem := (Spells.call (n := declaration) (.orLeft hdeclaration) fun _ _ => trivial).map
    (f := ItemTree.declaration)
  refine ⟨_, ?_, .call (n := item) (.orRight (.orRight (.orLeft (hitem.mono ?_))))
    fun _ _ => trivial⟩
  · have htoken : IsToken (.keyword .typeWord) "type" := by decide
    have htype := (Open.token rfl htoken).append_closed (c := ' ') (by decide) (.blank rfl)
    have hequals : Closed (' ' :: ("=".toList ++ [' '])) [Mark.equals.word] :=
      .blank_cons rfl (.mark_blank .equals)
    have hname := (Open.token rfl hx).append_closed (by decide) hequals
    simpa using (htype.append hname).append_open hopen
  · rintro _ ⟨_, ⟨_, ⟨_, right, ⟨_, _, ⟨_, n, ⟨word, -, rfl⟩, hn, rfl⟩, ⟨_, rfl, rfl⟩, rfl⟩,
      hright, rfl⟩, rfl⟩, rfl⟩ comments
    have hannotated : (right.buildAnnotated word.start).Makes names t := hright.annotated
    obtain ⟨type, hrun, hplain⟩ := hannotated comments
    obtain rfl : n.text = x := congrArg Prod.snd hn
    refine ⟨word.start, type, ?_, hplain⟩
    refine Build.run_bind_eq_ok.2 ⟨_, Build.run_bind_eq_ok.2 ⟨_, ?_, rfl⟩, rfl⟩
    exact Build.run_bind_eq_ok.2 ⟨_, hrun, rfl⟩

end Alias

namespace Module

/-- A type as it is written, declared under a name, is read as one alias of that name. Its right side is
the type, up to places and comments. -/
theorem parse_print {names : CharacterNames} {t : TypeExpr} (h : t.Spelled names) {x : String}
    (hx : IsToken .name x) (file : Option String) :
    ∃ m loc right, ofSource names ("type " ++ x ++ " = " ++ t.print) file = .ok m ∧
      m.items = [.statement (.declaration (.typeAlias ⟨loc, x, [], right⟩))] ∧
      plain right = plain t := by
  obtain ⟨ws, hopen, hspells⟩ := shows_alias hx h.readsBack.whole
  obtain ⟨hstuck, hwords⟩ := Lexing.ofSource_of_reads hopen.reads
  have hcursor : Cursor.words
      ⟨.first, (Lexing.ofSource ("type " ++ x ++ " = " ++ t.print)).tokens⟩ = ws ++ [] :=
    hwords.trans (List.append_nil ws).symm
  have hend : quiet [] := nofun
  obtain ⟨d, item, hitem, hrest, hdeclares⟩ := hspells hend hcursor
  obtain ⟨last, rest⟩ := d
  obtain rfl : rest = [] := List.map_eq_nil_iff.1 hrest
  have hsentence : Sentence Construct.greedy _ [item] :=
    ⟨last, written_iff.2 ⟨trivial, .cons hitem .nil⟩⟩
  obtain ⟨loc, right, hrun, hplain⟩ :=
    hdeclares (Lexing.ofSource ("type " ++ x ++ " = " ++ t.print)).comments
  refine ⟨⟨_, file⟩, loc, right, ofSource_eq_ok_iff.2 ⟨hstuck, rfl, [item], hsentence, ?_⟩, rfl,
    hplain⟩
  rw [List.mapM_cons]
  exact Build.run_bind_eq_ok.2 ⟨_, hrun, rfl⟩

theorem parse_print_of_nested :
    ∃ t : TypeExpr, t.print = "?((x?: Array<-1>) => \x7b| 'a-b': B | C[] |\x7d)" ∧
      ∃ m loc right, ofSource .none ("type " ++ "A" ++ " = " ++ t.print) none = .ok m ∧
        m.items = [.statement (.declaration (.typeAlias ⟨loc, "A", [], right⟩))] ∧
        plain right = plain t := by
  let p := Position.first
  have name {n : String} (hn : IsToken .name n) (hbare : TypeExpr.builtin? p n = none) :
      TypeExpr.Spelled .none (.reference p [] n []) :=
    .reference nofun hn (fun _ _ => hbare) nofun
  have argument : TypeExpr.Spelled .none (.reference p [] "Array" [.number p (.integer (-1)) "-1"]) :=
    .reference nofun (by decide) nofun
      (List.forall_mem_singleton.2 (.number (by decide) (by decide)))
  have union : TypeExpr.Spelled .none
      (.union p [.reference p [] "B" [], .array p (.reference p [] "C" [])]) := by
    refine .union (by decide) fun t ht => ?_
    rcases List.mem_pair.1 ht with rfl | rfl
    · exact name (by decide) (by decide)
    · exact .array (name (by decide) (by decide))
  have object : TypeExpr.Spelled .none (.object
      ⟨p, [.property ⟨p, .ofString "a-b", "'a-b'", _, false, true, ⟨[], []⟩⟩], [], [], true, []⟩) :=
    .object (List.forall_mem_singleton.2 ⟨fun _ => ⟨by decide, by decide⟩, nofun⟩)
      (List.forall_mem_singleton.2 union) nofun nofun nofun nofun nofun nofun
  have whole : TypeExpr.Spelled .none (.nullable p (.function p [⟨p, some "x", _, true, false⟩] _)) :=
    .nullable (.function (List.forall_mem_singleton.2 ⟨by decide, fun _ => ⟨rfl, rfl⟩⟩)
      (List.forall_mem_singleton.2 argument) object)
  exact ⟨_, rfl, parse_print whole (by decide) none⟩

end Module

end PropTables
