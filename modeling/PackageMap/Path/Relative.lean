import PackageMap.Path.Basic
import PackageMap.Text.Utf8

/-!
# Keys below a root

The key of a file is its path with the text of the root taken off, so the root's text and the key
give the path again.

Keys are made of texts, and paths are bytes. Where these are not UTF-8, what is shown of a path is
not all of it.
-/

namespace PackageMap.Path

/-- The root's text without the slashes at its end. -/
def rootText (root : Path) : List Char := (root.text.toList.reverse.dropWhile (· == '/')).reverse

/-- What follows `start` in `text`, if `text` begins with it. -/
def textAfter? : List Char → List Char → Option (List Char)
  | [], text => some text
  | _ :: _, [] => none
  | c :: start, d :: text => if c = d then textAfter? start text else none

theorem textAfter?_eq_some_iff {start text rest : List Char} :
    textAfter? start text = some rest ↔ text = start ++ rest := by
  fun_induction textAfter? start text <;> simp_all [eq_comm]

/-- The key of `p` below `root`, which begins with a slash unless it is empty. Outside the root it
is the whole text. -/
def relativize (p root : Path) : String :=
  match textAfter? (rootText root) p.text.toList with
  | none => p.text
  | some rest =>
    if rootText root = [] ∨ rest = [] ∨ rest.head? = some '/' then String.ofList rest else p.text

/-- The text of a path that stands for bytes: what of them is not UTF-8 is replaced. -/
def lossy (bytes : Path → ByteArray) (p : Path) : String := Text.Utf8.lossy (bytes p)

/-- The path stands for the bytes of its text, so all of its names are UTF-8. -/
def IsText (bytes : Path → ByteArray) (p : Path) : Prop := bytes p = p.text.toUTF8

/-- The key of `p` below `root`, made of the texts that are shown of them. -/
def relativizeAs (shown : Path → String) (p root : Path) : String :=
  (Path.mk (shown p)).relativize ⟨shown root⟩

/-- Whether `p` is the root, or lies below it, by its text. -/
def Below (root p : Path) : Prop :=
  ∃ rest, p.text.toList = rootText root ++ rest ∧ (rest = [] ∨ rest.head? = some '/')

theorem below_iff (root p : Path) :
    Below root p ↔ ∃ rest, textAfter? (rootText root) p.text.toList = some rest ∧
      (rest = [] ∨ rest.head? = some '/') := by
  simp only [Below, textAfter?_eq_some_iff]

instance (root p : Path) : Decidable (Below root p) :=
  match h : textAfter? (rootText root) p.text.toList with
  | none => isFalse fun hb => by
      obtain ⟨rest, hr, _⟩ := (below_iff root p).1 hb
      rw [h] at hr; cases hr
  | some rest =>
    if hs : rest = [] ∨ rest.head? = some '/' then
      isTrue ((below_iff root p).2 ⟨rest, h, hs⟩)
    else isFalse fun hb => by
      obtain ⟨rest', hr, hs'⟩ := (below_iff root p).1 hb
      rw [h] at hr; cases hr; exact hs hs'

theorem relativize_of_eq_append {p root : Path} {rest : List Char}
    (h : p.text.toList = rootText root ++ rest) (hs : rest = [] ∨ rest.head? = some '/') :
    p.relativize root = String.ofList rest := by
  unfold relativize
  rw [textAfter?_eq_some_iff.2 h]
  exact if_pos (.inr hs)

theorem relativize_of_not_below {p root : Path} (h : ¬ Below root p) :
    p.relativize root = p.text := by
  unfold relativize
  split
  · rfl
  · next rest hr =>
    have htext := textAfter?_eq_some_iff.1 hr
    split
    · next hs =>
      rcases hs with h0 | hs
      · rw [h0, List.nil_append] at htext
        rw [← htext, String.ofList_toList]
      · exact absurd ⟨rest, htext, hs⟩ h
    · rfl

end PackageMap.Path
