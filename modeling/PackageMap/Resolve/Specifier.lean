/-!
# Specifiers

A specifier is relative, absolute, or bare. A bare one starts with the name of a package, which
holds one slash if it begins with an `@`, and may go on with a path inside the package.
-/

namespace PackageMap.Resolve

/-- A specifier that is seen from the directory of the file that it is written in. -/
def isRelative (spec : String) : Bool :=
  match spec.toList with
  | ['.'] => true
  | ['.', '.'] => true
  | '.' :: '/' :: _ => true
  | '.' :: '.' :: '/' :: _ => true
  | _ => false

/-- A specifier that is a path from a root or from a drive. -/
def isAbsolute (spec : String) : Bool :=
  match spec.toList with
  | '/' :: _ => true
  | '\\' :: '\\' :: _ => true
  | drive :: ':' :: '\\' :: _ => drive.isAlpha
  | drive :: ':' :: '/' :: _ => drive.isAlpha
  | _ => false

def isBare (spec : String) : Bool := !isRelative spec && !isAbsolute spec

/-- Whether a text holds `://`. -/
def holdsAuthority : List Char → Bool
  | ':' :: '/' :: '/' :: _ => true
  | _ :: r => holdsAuthority r
  | [] => false

/-- A specifier that no file stands for: a URL, or a module of the platform. -/
def hasScheme (spec : String) : Bool :=
  holdsAuthority spec.toList || "node:".toList.isPrefixOf spec.toList ||
    "data:".toList.isPrefixOf spec.toList

/-- A bare specifier in two parts. -/
structure Bare where
  package : List Char
  /-- What follows the slash after the name. -/
  subpath : Option (List Char)
deriving DecidableEq, Repr

/-- The text before the first slash and the text after it. -/
def cutAtSlash (cs : List Char) : Bare :=
  match cs.dropWhile (· != '/') with
  | [] => ⟨cs, none⟩
  | _ :: sub => ⟨cs.takeWhile (· != '/'), some sub⟩

/-- The package name and the rest of a bare specifier. -/
def splitBare (spec : List Char) : Bare :=
  match spec, cutAtSlash spec with
  | '@' :: _, ⟨scope, some rest⟩ =>
    match cutAtSlash rest with
    | ⟨name, some sub⟩ => ⟨scope ++ '/' :: name, some sub⟩
    | ⟨_, none⟩ => ⟨spec, none⟩
  | _, bare => bare

/-- The specifier that the two parts make. -/
def Bare.text (b : Bare) : List Char :=
  match b.subpath with
  | none => b.package
  | some sub => b.package ++ '/' :: sub

theorem text_cutAtSlash (cs : List Char) : (cutAtSlash cs).text = cs := by
  unfold cutAtSlash
  split
  · rfl
  · next c sub h =>
    have hc : c = '/' := by
      have hp : ∀ l : List Char, ∀ r, l.dropWhile (· != '/') = c :: r → c = '/' := by
        intro l
        induction l with
        | nil => simp
        | cons a l ih =>
          intro r hr
          rw [List.dropWhile_cons] at hr
          split at hr
          · exact ih r hr
          · next ha => cases hr; simpa using ha
      exact hp cs sub h
    subst hc
    have := List.takeWhile_append_dropWhile (p := (· != '/')) (l := cs)
    rw [h] at this
    exact this

theorem text_splitBare (spec : List Char) : (splitBare spec).text = spec := by
  have hcut := text_cutAtSlash spec
  unfold splitBare
  split
  · next scope rest heq =>
    rw [heq] at hcut
    have hrest := text_cutAtSlash rest
    split
    · next name sub hr =>
      rw [hr] at hrest
      simp only [Bare.text] at hcut hrest ⊢
      rw [← hcut, ← hrest, List.append_assoc, List.cons_append]
    · rfl
  · exact hcut

end PackageMap.Resolve
