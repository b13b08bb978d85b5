import Gomibako.Beast.Scan
import Gomibako.Lib.Scanner

/-!
# Scanning a message in pieces

The functions that scan the words, the version, the fields and the chunk extensions of a message
obey the laws of scanners: they may be called again with more octets.
-/

namespace Gomibako.Beast

/-! ## Words, versions, fields and extensions -/

/-- A word is scanned: what is behind its space does not matter, and without the space it wants
more. -/
theorem isScanner_parseWord (isChar : Char → Bool) {bad : ParseError} (hbad : bad ≠ .needMore) :
    IsScanner .needMore (parseWord isChar bad) := by
  have heq : parseWord isChar bad = fun s => (IsScanner.span .needMore isChar s).bind fun x =>
      if x.1.2 ≠ ' ' then .error bad else if x.1.1 = [] then .error bad else .ok (x.1.1, x.2) := by
    funext s
    rw [parseWord, IsScanner.span]
    cases s.dropWhile isChar <;> rfl
  rw [heq]
  exact (IsScanner.isScanner_span .needMore isChar).bind
    (g := fun x rest => if x.2 ≠ ' ' then .error bad else if x.1 = [] then .error bad
      else .ok (x.1, rest))
    fun x => .ite (.throw hbad) (.ite (.throw hbad) (.pure _ _) _) _

/-- A method is scanned, as the words are. -/
theorem isScanner_parseMethod : IsScanner .needMore parseMethod :=
  isScanner_parseWord isTokenChar nofun

/-- A target is scanned, as the words are. -/
theorem isScanner_parseTarget : IsScanner .needMore parseTarget :=
  isScanner_parseWord isPathchar nofun

/-- The number of eight octets that are a version, tens for its first digit and ones for the
other. -/
def versionOf : Str → Option Nat
  | [a, b, c, d, e, major, dot, minor] =>
    if [a, b, c, d, e] = "HTTP/".toList && isDigit major && dot = '.' && isDigit minor then
      some (10 * (major.toNat - '0'.toNat) + (minor.toNat - '0'.toNat))
    else none
  | _ => none

/-- A version is eight octets, which are taken at once and then looked at. -/
theorem parseVersion_eq (s : Str) :
    parseVersion s = (IsScanner.take .needMore 8 s).bind fun x =>
      match versionOf x.1 with
      | some version => .ok (version, x.2)
      | none => .error .badVersion := by
  match s with
  | a :: b :: c :: d :: e :: major :: dot :: minor :: rest =>
    have htake : IsScanner.take ParseError.needMore 8
        (a :: b :: c :: d :: e :: major :: dot :: minor :: rest) =
        .ok ([a, b, c, d, e, major, dot, minor], rest) := by
      rw [IsScanner.take, if_neg (by simp)]
      rfl
    rw [htake, parseVersion]
    simp only [Except.bind, versionOf]
    split <;> rfl
  | [] | [_] | [_, _] | [_, _, _] | [_, _, _, _] | [_, _, _, _, _] | [_, _, _, _, _, _]
  | [_, _, _, _, _, _, _] => rfl

/-- A version is scanned: what is behind its eight octets does not matter. -/
theorem isScanner_parseVersion : IsScanner .needMore parseVersion := by
  rw [funext parseVersion_eq]
  refine (IsScanner.isScanner_take ParseError.needMore 8).bind
    (g := fun x rest => match versionOf x with
      | some version => .ok (version, rest)
      | none => .error ParseError.badVersion) fun x => ?_
  cases versionOf x with
  | none => exact .throw nofun
  | some version => exact .pure _ _

/-- The value of a field is scanned, wherever in it the scanner is. -/
theorem isScanner_parseValueFrom (pos : ValuePos) (buf rev : Str) :
    IsScanner .needMore (parseValueFrom pos buf rev) := by
  refine IsScanner.of_steps (f := fun x : ValuePos × Str × Str => parseValueFrom x.1 x.2.1 x.2.2)
    (fun x => by rw [parseValueFrom]) (fun x c => ?_) (pos, buf, rev)
  obtain ⟨pos, buf, rev⟩ := x
  cases pos with
  | lead =>
    simp only [parseValueFrom]
    refine .ite ?_ (.ite ?_ (.ite ?_ ?_))
    · exact .next (.lead, buf, []) fun _ => rfl
    · exact .next (.text, buf, [c]) fun _ => rfl
    · exact .next (.cr, buf, []) fun _ => rfl
    · exact .fail .badValue (by rintro ⟨⟩) fun _ => rfl
  | text =>
    simp only [parseValueFrom]
    refine .ite ?_ (.ite ?_ ?_)
    · exact .next (.text, buf, c :: rev) fun _ => rfl
    · exact .next (.cr, buf, rev) fun _ => rfl
    · exact .fail .badValue (by rintro ⟨⟩) fun _ => rfl
  | cr =>
    simp only [parseValueFrom]
    refine .ite ?_ ?_
    · exact .next (.eol, buf, rev) fun _ => rfl
    · exact .fail .badLineEnding (by rintro ⟨⟩) fun _ => rfl
  | eol =>
    simp only [parseValueFrom]
    refine .ite ?_ (.ite ?_ (.ite ?_ ?_))
    · exact .fail .lengthError (by rintro ⟨⟩) fun _ => rfl
    · exact .fail .headerLimit (by rintro ⟨⟩) fun _ => rfl
    · exact .next (.lead, _, []) fun _ => rfl
    · exact .stop _ fun _ => rfl

/-- A field is a sequence of scanners: the characters of the name, a colon, and a value behind
it. -/
theorem parseField_eq (s : Str) :
    parseField s = (IsScanner.span .needMore isTokenChar s).bind fun x =>
      if x.1.2 ≠ ':' then .error .badField
      else if x.1.1 = [] then .error .badField
      else (parseValueFrom .lead [] [] x.2).map fun y => (x.1.1, y.1, y.2) := by
  rw [parseField, IsScanner.span]
  cases s.dropWhile isTokenChar <;> rfl

/-- A field is scanned, being a sequence of scanners: a value wants to see what is behind its line
end. -/
theorem isScanner_parseField :
    IsScanner .needMore fun s => (parseField s).map fun x => ((x.1, x.2.1), x.2.2) := by
  have heq : (fun s => (parseField s).map fun x => ((x.1, x.2.1), x.2.2)) = fun s =>
      (IsScanner.span ParseError.needMore isTokenChar s).bind fun x =>
        if x.1.2 ≠ ':' then .error .badField
        else if x.1.1 = [] then .error .badField
        else (parseValueFrom .lead [] [] x.2).map fun y => ((x.1.1, y.1), y.2) := by
    funext s
    rw [parseField_eq]
    cases IsScanner.span ParseError.needMore isTokenChar s with
    | error e => rfl
    | ok x =>
      simp only [Except.bind]
      split_ifs
      · rfl
      · rfl
      · cases parseValueFrom .lead [] [] x.2 <;> rfl
  rw [heq]
  refine (IsScanner.isScanner_span .needMore isTokenChar).bind
    (g := fun x rest => if x.2 ≠ ':' then .error .badField else if x.1 = [] then .error .badField
      else (parseValueFrom .lead [] [] rest).map fun y => ((x.1, y.1), y.2)) fun x => ?_
  refine .ite ?_ (.ite ?_ ?_ _) _
  · exact .throw (e := ParseError.badField) nofun
  · exact .throw (e := ParseError.badField) nofun
  · exact (isScanner_parseValueFrom _ _ _).map _

/-- Chunk extensions are scanned, from every position in them: each character is a step. -/
theorem isScanner_chunkExtensionsFrom (pos : ExtensionPos) :
    IsScanner .needMore fun s => (chunkExtensionsFrom pos s).map fun r => ((), r) := by
  refine IsScanner.of_steps (f := fun pos s => (chunkExtensionsFrom pos s).map fun r => ((), r))
    (fun x => by rw [chunkExtensionsFrom]; rfl) (fun pos c => ?_) pos
  cases pos with
  | next =>
    simp only [chunkExtensionsFrom, apply_ite (Except.map _)]
    refine .ite ?_ (.ite ?_ ?_)
    · exact .next .space fun _ => rfl
    · exact .next .semi fun _ => rfl
    · exact .stop () fun _ => rfl
  | space =>
    simp only [chunkExtensionsFrom, apply_ite (Except.map _)]
    refine .ite ?_ (.ite ?_ ?_)
    · exact .next .space fun _ => rfl
    · exact .next .semi fun _ => rfl
    · exact .fail .badChunkExtension (by rintro ⟨⟩) fun _ => rfl
  | semi =>
    simp only [chunkExtensionsFrom, apply_ite (Except.map _)]
    refine .ite ?_ (.ite ?_ ?_)
    · exact .next .semi fun _ => rfl
    · exact .next .name fun _ => rfl
    · exact .fail .badChunkExtension (by rintro ⟨⟩) fun _ => rfl
  | name =>
    simp only [chunkExtensionsFrom, apply_ite (Except.map _)]
    refine .ite ?_ (.ite ?_ (.ite ?_ (.ite ?_ ?_)))
    · exact .next .name fun _ => rfl
    · exact .next .nameSpace fun _ => rfl
    · exact .next .semi fun _ => rfl
    · exact .next .eq fun _ => rfl
    · exact .stop () fun _ => rfl
  | nameSpace =>
    simp only [chunkExtensionsFrom, apply_ite (Except.map _)]
    refine .ite ?_ (.ite ?_ (.ite ?_ ?_))
    · exact .next .nameSpace fun _ => rfl
    · exact .next .semi fun _ => rfl
    · exact .next .eq fun _ => rfl
    · exact .fail .badChunkExtension (by rintro ⟨⟩) fun _ => rfl
  | eq =>
    simp only [chunkExtensionsFrom, apply_ite (Except.map _)]
    refine .ite ?_ (.ite ?_ (.ite ?_ ?_))
    · exact .next .eq fun _ => rfl
    · exact .next .quoted fun _ => rfl
    · exact .next .token fun _ => rfl
    · exact .fail .badChunkExtension (by rintro ⟨⟩) fun _ => rfl
  | token =>
    simp only [chunkExtensionsFrom, apply_ite (Except.map _)]
    refine .ite ?_ (.ite ?_ (.ite ?_ ?_))
    · exact .next .token fun _ => rfl
    · exact .next .space fun _ => rfl
    · exact .next .semi fun _ => rfl
    · exact .stop () fun _ => rfl
  | quoted =>
    simp only [chunkExtensionsFrom, apply_ite (Except.map _)]
    refine .ite ?_ (.ite ?_ ?_)
    · exact .next .next fun _ => rfl
    · exact .next .escaped fun _ => rfl
    · exact .next .quoted fun _ => rfl
  | escaped =>
    simp only [chunkExtensionsFrom]
    exact .next .quoted fun _ => rfl

end Gomibako.Beast
