/-!
Text as a list of code points. It differs from `String` in one point: a list of code points may hold
a surrogate that has no partner, which an escape such as `\ud83d` in a string literal can produce.
-/

namespace PropTables

abbrev CodePoint := Fin 0x110000

abbrev Text := List CodePoint

namespace CodePoint

def ofChar (c : Char) : CodePoint :=
  ⟨c.toNat, by
    have h := c.valid
    simp only [UInt32.isValidChar, Nat.isValidChar] at h
    simp only [Char.toNat]
    omega⟩

def ofNat? (n : Nat) : Option CodePoint :=
  if h : n < 0x110000 then some ⟨n, h⟩ else none

def toChar? (c : CodePoint) : Option Char :=
  if h : c.val.isValidChar then some (Char.ofNatAux c.val h) else none

@[simp] theorem toChar?_ofChar (c : Char) : (ofChar c).toChar? = some c := by
  have h : (ofChar c).val.isValidChar := c.valid
  exact dif_pos h

theorem toChar?_eq_some_iff {c : CodePoint} {d : Char} : c.toChar? = some d ↔ c = ofChar d := by
  constructor
  · intro h
    by_cases hvalid : c.val.isValidChar
    · unfold toChar? at h
      rw [dif_pos hvalid, Option.some.injEq] at h
      rw [← h]
      rfl
    · unfold toChar? at h
      rw [dif_neg hvalid] at h
      cases h
  · rintro rfl
    exact toChar?_ofChar d

end CodePoint

namespace Text

def ofString (s : String) : Text :=
  s.toList.map CodePoint.ofChar

def toString? (t : Text) : Option String :=
  (t.mapM CodePoint.toChar?).map String.ofList

@[simp] theorem toString?_ofString (s : String) : (ofString s).toString? = some s := by
  have h (cs : List Char) : (cs.map CodePoint.ofChar).mapM CodePoint.toChar? = some cs := by
    induction cs with
    | nil => rfl
    | cons c r ih => simp [ih]
  simp [toString?, ofString, h]

theorem toString?_eq_some_iff {t : Text} {s : String} : t.toString? = some s ↔ t = ofString s := by
  have chars (cs : List CodePoint) (ds : List Char) (h : cs.mapM CodePoint.toChar? = some ds) :
      cs = ds.map CodePoint.ofChar := by
    induction cs generalizing ds with
    | nil =>
      cases h
      rfl
    | cons c cs ih =>
      simp only [List.mapM_cons, Option.bind_eq_bind, Option.bind_eq_some_iff, Option.pure_def,
        Option.some.injEq] at h
      obtain ⟨d, hd, rest, hrest, rfl⟩ := h
      rw [List.map_cons, CodePoint.toChar?_eq_some_iff.1 hd, ← ih rest hrest]
  constructor
  · intro h
    obtain ⟨ds, hds, rfl⟩ := Option.map_eq_some_iff.1 h
    rw [ofString, String.toList_ofList]
    exact chars t ds hds
  · intro h
    rw [h]
    exact toString?_ofString s

end Text

end PropTables
