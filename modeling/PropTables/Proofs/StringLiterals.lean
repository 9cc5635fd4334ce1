import Mathlib.Algebra.Group.Nat.Defs
import PropTables.Proofs.TextOrder
import PropTables.Text.Literal
import PropTables.Validator.Render

/-! String literals are read as what they were written for. A text is written as a literal of a source,
and in ASCII where it is rendered. Either way every character of it has a piece of the literal to itself,
and what a piece stands for depends on nothing behind it. -/

namespace PropTables

def CodePoint.units (c : CodePoint) : Text :=
  if c.val < 0x10000 then [c]
  else
    [⟨0xd800 + (c.val - 0x10000) / 0x400, by omega⟩, ⟨0xdc00 + (c.val - 0x10000) % 0x400, by omega⟩]

section Hexadecimal

theorem hexValue?_hexDigit {d : Nat} (hd : d < 16) : hexValue? (hexDigit d) = some d := by
  have h : ∀ d : Fin 16, hexValue? (hexDigit d) = some d.val := by decide
  exact h ⟨d, hd⟩

theorem hexNumber?_concat (cs : List Char) (c : Char) :
    hexNumber? (cs ++ [c]) =
      (hexNumber? cs).bind fun n => (hexValue? c).map fun d => 16 * n + d := by
  unfold hexNumber?
  rw [List.mapM_append]
  cases cs.mapM hexValue? with
  | none => rfl
  | some ds => cases hc : hexValue? c <;> simp [hc]

theorem hexNumber?_hexDigits (places n : Nat) :
    hexNumber? (hexDigits places n) = some (n % 16 ^ places) := by
  induction places generalizing n with
  | zero => simp [hexDigits, hexNumber?, Nat.mod_one]
  | succ places ih =>
    rw [hexDigits, hexNumber?_concat, ih, hexValue?_hexDigit (Nat.mod_lt n (by decide))]
    have hmod : n % 16 ^ (places + 1) = 16 * (n / 16 % 16 ^ places) + n % 16 := by
      rw [Nat.pow_succ', Nat.mod_mul]
      omega
    rw [hmod]
    rfl

theorem mem_hexDigits {places n : Nat} {c : Char} (h : c ∈ hexDigits places n) :
    ∃ d < 16, c = hexDigit d := by
  induction places generalizing n with
  | zero => cases h
  | succ places ih =>
    rw [hexDigits, List.mem_append, List.mem_singleton] at h
    rcases h with h | h
    · exact ih h
    · exact ⟨n % 16, Nat.mod_lt n (by decide), h⟩

end Hexadecimal

namespace Text

def sourceEscape (quote c : Char) : List Char :=
  if c = '\\' ∨ c = quote then ['\\', c]
  else if c = '\n' then ['\\', 'n']
  else if c = '\r' then ['\\', 'r']
  else [c]

def sourceLiteral (quote : Char) (s : String) : String :=
  String.ofList (quote :: s.toList.flatMap (sourceEscape quote) ++ [quote])

variable {names : CharacterNames}

theorem unescape?_skip (cs r : List Char) :
    unescape? names cs.length (cs ++ r) = unescape? names 0 r := by
  induction cs with
  | nil => rfl
  | cons c cs ih => rw [List.length_cons, List.cons_append, unescape?, ih]

/-- Between two such quotes the characters stand for the text, whatever follows them there and
whatever characters are called, and the literal goes on behind them. -/
structure Denotes (quote : Char) (cs : List Char) (t : Text) : Prop where
  value (names : CharacterNames) (r : List Char) :
    unescape? names 0 (cs ++ r) = (unescape? names 0 r).map (t ++ ·)
  goesOn (r : List Char) : Pattern.quotedRest quote false (cs ++ r) =
    (Pattern.quotedRest quote false r).map (· + cs.length)
  noNull : '\x00' ∉ cs

namespace Denotes

variable {quote c : Char} {cs ds : List Char} {t u : Text}

theorem nil : Denotes quote [] [] where
  value names r := by simp
  goesOn r := by simp
  noNull := nofun

theorem append (hc : Denotes quote cs t) (hd : Denotes quote ds u) :
    Denotes quote (cs ++ ds) (t ++ u) where
  value names r := by
    rw [List.append_assoc, hc.value, hd.value, Option.map_map]
    exact congrArg (Option.map · _) (funext fun _ => (List.append_assoc ..).symm)
  goesOn r := by
    rw [List.append_assoc, hc.goesOn, hd.goesOn, Option.map_map, List.length_append]
    exact congrArg (Option.map · _) (funext fun _ => by simp only [Function.comp_apply]; omega)
  noNull h := (List.mem_append.1 h).elim hc.noNull hd.noNull

theorem flatMap {α : Type} {piece : α → List Char} {meaning : α → Text} {as : List α}
    (h : ∀ a ∈ as, Denotes quote (piece a) (meaning a)) :
    Denotes quote (as.flatMap piece) (as.flatMap meaning) := by
  induction as with
  | nil => exact nil
  | cons a as ih =>
    obtain ⟨ha, has⟩ := List.forall_mem_cons.1 h
    exact ha.append (ih has)

theorem goesOn_plain (hc : c ≠ '\\' ∧ c ≠ quote ∧ c ≠ '\n') (r : List Char) :
    Pattern.quotedRest quote false (c :: r) = (Pattern.quotedRest quote false r).map (· + 1) := by
  obtain ⟨hslash, hquote, hline⟩ := hc
  rw [Pattern.quotedRest_cons hslash, if_neg hquote, if_neg fun h => hline h.1]

theorem goesOn_plains (h : ∀ c ∈ cs, c ≠ '\\' ∧ c ≠ quote ∧ c ≠ '\n') (r : List Char) :
    Pattern.quotedRest quote false (cs ++ r) =
      (Pattern.quotedRest quote false r).map (· + cs.length) := by
  induction cs with
  | nil => simp
  | cons c cs ih =>
    obtain ⟨hc, hcs⟩ := List.forall_mem_cons.1 h
    rw [List.cons_append, goesOn_plain hc, ih hcs, Option.map_map]
    rfl

theorem plain (hc : c ≠ '\\' ∧ c ≠ quote ∧ c ≠ '\n') (hreturn : c ≠ '\r') (hnull : c ≠ '\x00') :
    Denotes quote [c] [.ofChar c] where
  value names r := by
    rw [List.singleton_append, unescape?, if_neg hc.1, if_neg hreturn]
    rfl
  goesOn r := goesOn_plain hc r
  noNull h := hnull (List.mem_singleton.1 h).symm

theorem escape (hc : c ≠ '\n') (hcs : ∀ d ∈ cs, d ≠ '\\' ∧ d ≠ quote ∧ d ≠ '\n')
    (hnull : '\x00' ∉ c :: cs)
    (h : ∀ names r, escape? names (c :: cs ++ r) = some (t, cs.length + 1)) :
    Denotes quote ('\\' :: c :: cs) t where
  value names r := by
    have hescape := h names r
    have hskip : unescape? names (cs.length + 1) (c :: cs ++ r) = unescape? names 0 r :=
      unescape?_skip (c :: cs) r
    rw [List.cons_append] at hescape hskip
    rw [List.cons_append, List.cons_append, unescape?, if_pos rfl, hescape]
    show (unescape? names (cs.length + 1) (c :: (cs ++ r))).bind (fun u => some (t ++ u)) = _
    rw [hskip]
    exact Option.map_eq_bind.symm
  goesOn r := by
    rw [List.cons_append, List.cons_append, Pattern.quotedRest, if_neg hc, goesOn_plains hcs,
      Option.map_map]
    rfl
  noNull h := (List.mem_cons.1 h).elim (by decide) hnull

theorem literal (hquote : quote = '"' ∨ quote = '\'') (h : Denotes quote cs t) :
    ofLiteral? names (String.ofList (quote :: cs ++ [quote])) = some t ∧
      ∀ r, LexemeClass.recognise (quote :: cs ++ [quote] ++ r) =
        some (.token .string, (quote :: cs ++ [quote]).length) := by
  constructor
  · have hbody : ((quote :: cs ++ [quote]).drop 1).dropLast = cs := by
      rw [List.cons_append, List.drop_one, List.tail_cons, List.dropLast_concat]
    have hnull : '\x00' ∉ quote :: cs ++ [quote] := by
      have hne : '\x00' ≠ quote := by rcases hquote with rfl | rfl <;> decide
      simp [hne, h.noNull]
    have hvalue := h.value names []
    rw [List.append_nil] at hvalue
    rw [ofLiteral?, String.toList_ofList, if_neg hnull, hbody, hvalue, unescape?, Option.map_some,
      List.append_nil]
  · intro r
    apply LexemeClass.recognise_string
    have hlast : Pattern.quotedRest quote false (quote :: r) = some 1 := by
      have hslash : quote ≠ '\\' := by
        rcases hquote with rfl | rfl <;> decide
      rw [Pattern.quotedRest_cons hslash, if_pos rfl]
    have hrest : Pattern.quotedRest quote false (cs ++ quote :: r) = some (1 + cs.length) := by
      rw [h.goesOn, hlast, Option.map_some]
    have htext : quote :: cs ++ [quote] ++ r = quote :: (cs ++ quote :: r) := by simp
    have hlength : (quote :: cs ++ [quote]).length = 1 + cs.length + 1 := by
      simp only [List.length_append, List.length_cons, List.length_nil]
      omega
    rw [htext, hlength]
    rcases hquote with rfl | rfl
    · rw [Pattern.string, hrest, Option.map_some]
    · rw [Pattern.string, hrest, Option.map_some]

theorem hexEscape?_hexDigits {places n : Nat} (hfits : n < 16 ^ places) (hn : n < 0x110000)
    (r : List Char) :
    hexEscape? places (hexDigits places n ++ r) = some ([⟨n, hn⟩], places + 1) := by
  have htake : (hexDigits places n ++ r).take places = hexDigits places n := by
    rw [List.take_append_of_le_length (length_hexDigits places n).ge, List.take_of_length_le]
    exact (length_hexDigits places n).le
  have hnumber : hexNumber? (hexDigits places n) = some n := by
    rw [hexNumber?_hexDigits, Nat.mod_eq_of_lt hfits]
  unfold hexEscape?
  dsimp only
  rw [htake, length_hexDigits, if_neg (lt_irrefl places), hnumber]
  simp [CodePoint.ofNat?, hn]

theorem unit {n : Nat} (h : n < 0x10000) : Denotes '"' (Json.unitEscape n) [⟨n, by omega⟩] := by
  refine @escape '"' 'u' (hexDigits 4 n) _ (by decide) ?_ ?_ ?_
  · intro d hd
    obtain ⟨m, hm, rfl⟩ := mem_hexDigits hd
    have hplain : ∀ m : Fin 16, hexDigit m ≠ '\\' ∧ hexDigit m ≠ '"' ∧ hexDigit m ≠ '\n' := by decide
    exact hplain ⟨m, hm⟩
  · intro hnull
    obtain ⟨m, hm, hdigit⟩ := mem_hexDigits ((List.mem_cons.1 hnull).resolve_left (by decide))
    have hdigits : ∀ m : Fin 16, '\x00' ≠ hexDigit m := by decide
    exact hdigits ⟨m, hm⟩ hdigit
  · intro names r
    have hescape : hexEscape? 4 (hexDigits 4 n ++ r) = some ([⟨n, by omega⟩], 4 + 1) :=
      hexEscape?_hexDigits h (by omega) r
    rw [length_hexDigits]
    exact hescape

theorem short {meant : Char} (hc : c ≠ '\n') (hnull : c ≠ '\x00')
    (h : ∀ names r, escape? names (c :: r) = some ([.ofChar meant], 1)) :
    Denotes quote ['\\', c] [.ofChar meant] :=
  @escape quote c [] _ hc nofun (fun hmem => hnull (List.mem_singleton.1 hmem).symm) h

theorem sourceEscape (hquote : quote = '"' ∨ quote = '\'') (hnull : c ≠ '\x00') :
    Denotes quote (sourceEscape quote c) [.ofChar c] := by
  have hmeans : ∀ d, (d = '\\' ∨ d = quote) →
      ∀ names r, escape? names (d :: r) = some ([.ofChar d], 1) := by
    rintro d (rfl | rfl) names r
    · rfl
    · rcases hquote with rfl | rfl <;> rfl
  unfold Text.sourceEscape
  split
  next h =>
    have hline : c ≠ '\n' := by
      rcases h with rfl | rfl
      · decide
      · rcases hquote with rfl | rfl <;> decide
    exact short hline hnull (hmeans c h)
  split
  next _ h =>
    subst h
    exact short (by decide) (by decide) fun names r => rfl
  split
  next _ _ h =>
    subst h
    exact short (by decide) (by decide) fun names r => rfl
  next h hline hreturn =>
    rw [not_or] at h
    exact plain ⟨h.1, h.2, hline⟩ hreturn hnull

theorem printable {c : CodePoint} (hc : 0x20 ≤ c.val ∧ c.val < 0x7f) (hquote : c.val ≠ 0x22)
    (hslash : c.val ≠ 0x5c) : Denotes '"' c.toChar?.toList [c] := by
  have hvalid : c.val.isValidChar := by
    unfold Nat.isValidChar
    omega
  have hchar : c.toChar? = some (Char.ofNatAux c.val hvalid) := dif_pos hvalid
  generalize Char.ofNatAux c.val hvalid = d at hchar
  have hd : .ofChar d = c := (CodePoint.toChar?_eq_some_iff.1 hchar).symm
  have apart {e : Char} (he : c.val ≠ (CodePoint.ofChar e).val) : d ≠ e := by
    rintro rfl
    exact he (congrArg Fin.val hd.symm)
  rw [hchar, Option.toList_some, ← hd]
  refine plain ⟨apart ?_, apart ?_, apart ?_⟩ (apart ?_) (apart ?_)
  · exact hslash
  · exact hquote
  · exact fun h => absurd (h ▸ hc.1) (by decide)
  · exact fun h => absurd (h ▸ hc.1) (by decide)
  · exact fun h => absurd (h ▸ hc.1) (by decide)

theorem jsonEscape (c : CodePoint) : Denotes '"' (Json.escapeOne c) c.units := by
  have meant {d : Char} (h : c.val = d.toNat) (hd : d.toNat < 0x10000) : c.units = [.ofChar d] := by
    have hc : c = .ofChar d := Fin.ext h
    rw [CodePoint.units, if_pos (h ▸ hd), hc]
  unfold Json.escapeOne
  split
  next h => exact meant (d := '"') h (by decide) ▸ short (by decide) (by decide) fun names r => rfl
  next h => exact meant (d := '\\') h (by decide) ▸ short (by decide) (by decide) fun names r => rfl
  next h => exact meant (d := '\x08') h (by decide) ▸ short (by decide) (by decide) fun names r => rfl
  next h => exact meant (d := '\t') h (by decide) ▸ short (by decide) (by decide) fun names r => rfl
  next h => exact meant (d := '\n') h (by decide) ▸ short (by decide) (by decide) fun names r => rfl
  next h => exact meant (d := '\x0c') h (by decide) ▸ short (by decide) (by decide) fun names r => rfl
  next h => exact meant (d := '\r') h (by decide) ▸ short (by decide) (by decide) fun names r => rfl
  next hquote hslash _ _ _ _ _ =>
    split
    next h =>
      rw [CodePoint.units, if_pos (by omega)]
      exact printable h hquote hslash
    split
    next h =>
      rw [CodePoint.units, if_pos h]
      exact unit h
    next h =>
      -- A code point beyond U+FFFF is written as its two surrogates, one escape for each.
      have hlt := c.isLt
      rw [CodePoint.units, if_neg h]
      exact (unit (by omega)).append (unit (by omega))

end Denotes

end Text

namespace Lexing

theorem exists_scan_of_prefix {steps : Nat} {p : Position} {cs : List Char} {ls : List Lexeme}
    (h : ls <+: (scan steps p cs).lexemes) (hs : cs.length ≤ steps) :
    ∃ r left, cs = ls.flatMap (·.text.toList) ++ r ∧ r.length ≤ left ∧
      (scan steps p cs).lexemes =
        ls ++ (scan left (p.advance (ls.flatMap (·.text.toList))) r).lexemes := by
  induction ls generalizing steps p cs with
  | nil => exact ⟨cs, steps, rfl, hs, rfl⟩
  | cons l ls ih =>
    cases cs with
    | nil => cases steps <;> simp [scan] at h
    | cons c r =>
      obtain ⟨steps, rfl⟩ : ∃ n, steps = n + 1 := ⟨steps - 1, by simp at hs; omega⟩
      cases hk : LexemeClass.recognise (c :: r) with
      | none =>
        have hend : (scan (steps + 1) p (c :: r)).lexemes = [] := by rw [scan, hk]
        rw [hend] at h
        simp at h
      | some found =>
        obtain ⟨k, n⟩ := found
        let q := p.advance ((c :: r).take n)
        have hfirst : (scan (steps + 1) p (c :: r)).lexemes =
            ⟨k, String.ofList ((c :: r).take n), ⟨p, q⟩⟩ :: (scan steps q ((c :: r).drop n)).lexemes := by
          rw [scan, hk]
        rw [hfirst, List.cons_prefix_cons] at h
        obtain ⟨rfl, h⟩ := h
        -- The prefix begins with the first lexeme; the scan goes on behind it with fewer characters.
        have hpos := recognise_pos hk
        have hdrop : ((c :: r).drop n).length ≤ steps := by
          simp only [List.length_cons, List.length_drop] at hs ⊢
          omega
        obtain ⟨rest, left, hsplit, hleft, hscan⟩ := ih h hdrop
        refine ⟨rest, left, ?_, hleft, ?_⟩
        · rw [List.flatMap_cons, List.append_assoc, ← hsplit, String.toList_ofList,
            List.take_append_drop]
        · rw [hfirst, hscan, List.flatMap_cons, String.toList_ofList, Position.advance_append]
          rfl

/-- Wherever a lexeme of a source starts, and the text is there, the text is that lexeme, a token of the
terminal. -/
def AlwaysToken (k : Terminal) (text : String) : Prop :=
  ∀ (before after : List Char) (ls : List Lexeme),
    let source := String.ofList (before ++ text.toList ++ after)
    let start := Position.first.advance before
    ls <+: (ofSource source).lexemes → ls.flatMap (·.text.toList) = before →
      ls ++ [⟨.token k, text, ⟨start, start.advance text.toList⟩⟩] <+: (ofSource source).lexemes

theorem alwaysToken_of_recognise {k : Terminal} {text : String} (htext : text.toList ≠ [])
    (h : ∀ r, LexemeClass.recognise (text.toList ++ r) = some (.token k, text.toList.length)) :
    AlwaysToken k text := by
  intro before after ls source start hls hbefore
  have hsource : source.toList = before ++ (text.toList ++ after) := by
    rw [String.toList_ofList, List.append_assoc]
  obtain ⟨r, left, hsplit, hleft, hscan⟩ :=
    exists_scan_of_prefix hls (Nat.le_of_eq String.length_toList)
  rw [hbefore] at hsplit hscan
  have hr : r = text.toList ++ after := List.append_cancel_left (hsplit.symm.trans hsource)
  subst hr
  obtain ⟨_, _, hnext⟩ := exists_scan_append start (h after) htext hleft
  change (ofSource source).lexemes = _ at hscan
  rw [hscan, hnext, String.ofList_toList]
  refine List.prefix_append_right_inj ls |>.2 ?_
  exact List.prefix_append [_] _

end Lexing

namespace Text

/-- A string without null characters that is written as a literal, with escapes for a backslash, the
quote and the ends of lines, is one token wherever a token starts, and that stands for the string. So is
the text that is rendered for any text without a spelling of its own; it stands for the text with every
code point beyond U+FFFF as two surrogates. What characters are called does not matter. -/
theorem literals_read_back (names : CharacterNames) :
    (∀ quote ∈ ['"', '\''], ∀ s : String, '\x00' ∉ s.toList →
      Lexing.AlwaysToken .string (sourceLiteral quote s) ∧
        ofLiteral? names (sourceLiteral quote s) = some (ofString s)) ∧
    ∀ (t : Text) (notes : Notes) (indent : Option Nat),
      let written := (Validator.literal (.text t) none notes).render indent
      Lexing.AlwaysToken .string written ∧
        ofLiteral? names written = some (t.flatMap CodePoint.units) := by
  have token {quote : Char} {cs : List Char} {t : Text} (hquote : quote = '"' ∨ quote = '\'')
      (h : Denotes quote cs t) :
      Lexing.AlwaysToken .string (String.ofList (quote :: cs ++ [quote])) ∧
        ofLiteral? names (String.ofList (quote :: cs ++ [quote])) = some t := by
    obtain ⟨hvalue, hrecognise⟩ := h.literal hquote
    refine ⟨Lexing.alwaysToken_of_recognise ?_ ?_, hvalue⟩
    · rw [String.toList_ofList]
      exact List.cons_ne_nil _ _
    · rw [String.toList_ofList]
      exact hrecognise
  constructor
  · intro quote hmem s hnull
    have hquote : quote = '"' ∨ quote = '\'' := by simpa using hmem
    have hdenotes := Denotes.flatMap fun c (hc : c ∈ s.toList) =>
      Denotes.sourceEscape hquote fun h => hnull (h ▸ hc)
    have hstring : (s.toList.flatMap fun c => [CodePoint.ofChar c]) = ofString s :=
      List.map_eq_flatMap.symm
    rw [hstring] at hdenotes
    exact token hquote hdenotes
  · intro t notes indent written
    have hdenotes := Denotes.flatMap fun c (_ : c ∈ t) => Denotes.jsonEscape c
    have hwritten : written = Json.quoteText t := by cases indent <;> rfl
    rw [hwritten]
    exact token (.inl rfl) hdenotes

theorem literals_read_back_of_smile :
    '\'' ∈ ['"', '\''] ∧ '\x00' ∉ "it's\n😀".toList ∧ sourceLiteral '\'' "it's\n😀" = "'it\\'s\\n😀'" ∧
      Lexing.AlwaysToken .string "'it\\'s\\n😀'" ∧
      ofLiteral? .none "'it\\'s\\n😀'" = some (ofString "it's\n😀") ∧
      (Validator.literal (.text (ofString "😀")) none .none).render none = "\"\\ud83d\\ude00\"" ∧
      ofLiteral? .none "\"\\ud83d\\ude00\"" = some [0xd83d, 0xde00] := by
  have hmem : '\'' ∈ ['"', '\''] := by decide
  have hnull : '\x00' ∉ "it's\n😀".toList := by decide
  have hwritten : sourceLiteral '\'' "it's\n😀" = "'it\\'s\\n😀'" := by decide
  have hrendered : (Validator.literal (.text (ofString "😀")) none .none).render none =
      "\"\\ud83d\\ude00\"" := by decide
  obtain ⟨htoken, hvalue⟩ := (literals_read_back .none).1 '\'' hmem "it's\n😀" hnull
  have hsmile := ((literals_read_back .none).2 (ofString "😀") .none none).2
  rw [hwritten] at htoken hvalue
  rw [hrendered] at hsmile
  exact ⟨hmem, hnull, hwritten, htoken, hvalue, hrendered, hsmile⟩

end Text

end PropTables
