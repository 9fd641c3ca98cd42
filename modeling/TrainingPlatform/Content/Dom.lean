import TrainingPlatform.Content.Render
import TrainingPlatform.Go.Decimal
import TrainingPlatform.Go.Scan

/-!
# The elements of a page

A page as its script finds it: elements with attributes.  What parses a page is an argument
wherever a page is judged; `startTags` reads the tags `Render` writes itself.
-/

namespace TrainingPlatform.Content

open Go

/-- An element in the document: its names are in lower case, its values decoded. -/
structure Element where
  name : GoString
  attrs : List (GoString × GoString)
  deriving DecidableEq

/-- Makes the elements of a page, in page order. -/
abbrev HtmlParser := GoString → List Element

/-- `getAttribute`; of two attributes of a name the document has the first. -/
def Element.attr (e : Element) (name : GoString) : Option GoString :=
  (e.attrs.find? fun a => a.1 = name).map Prod.snd

/-- The value of an attribute as the script tests it: none is as good as empty. -/
def Element.value (e : Element) (name : String) : GoString := (e.attr (utf8 name)).getD []

def setAttr (name v : GoString) : List (GoString × GoString) → List (GoString × GoString)
  | [] => [(name, v)]
  | a :: attrs => if a.1 = name then (name, v) :: attrs else a :: setAttr name v attrs

/-- `setAttribute`. -/
def Element.set (e : Element) (name v : GoString) : Element :=
  { e with attrs := setAttr name v e.attrs }

/-- The class selector `.c`. -/
def Element.hasClass (e : Element) (c : GoString) : Bool :=
  ((e.value "class").splitOnP isBlank).contains c

@[simp] theorem Element.name_set (e : Element) (name v : GoString) : (e.set name v).name = e.name :=
  rfl

@[simp] theorem Element.attr_set_self (e : Element) (name v : GoString) :
    (e.set name v).attr name = some v := by
  have hfind : ∀ attrs, ((setAttr name v attrs).find? fun a => a.1 = name) = some (name, v) := by
    intro attrs
    induction attrs with
    | nil => simp [setAttr]
    | cons a attrs ih =>
      rw [setAttr]
      split_ifs with ha
      · exact List.find?_cons_of_pos (decide_eq_true rfl)
      · rw [List.find?_cons_of_neg (by simpa using ha), ih]
  rw [Element.attr, Element.set, hfind]
  rfl

theorem Element.attr_set_of_ne {e : Element} {name other v : GoString} (h : other ≠ name) :
    (e.set name v).attr other = e.attr other := by
  have hfind : ∀ attrs, ((setAttr name v attrs).find? fun a => a.1 = other) =
      attrs.find? fun a => a.1 = other := by
    intro attrs
    induction attrs with
    | nil => simp [setAttr, Ne.symm h]
    | cons a attrs ih =>
      rw [setAttr]
      split_ifs with ha
      · rw [List.find?_cons_of_neg (by simpa using Ne.symm h),
          List.find?_cons_of_neg (by simpa [ha] using Ne.symm h)]
      · rw [List.find?_cons, List.find?_cons, ih]
  rw [Element.attr, Element.set, hfind]
  rfl

/-! ## Tags as they are rendered -/

def isTagByte (b : UInt8) : Bool := Re.letter b || isDecimal b || b = 0x2D

/-- Attributes with values in double quotes, up to the end of the tag. -/
def readAttrs : Nat → GoString → Option (List (GoString × GoString))
  | 0, _ => none
  | n + 1, s =>
    if hasPrefix s (utf8 ">") then some []
    else do
      let s ← cutPrefix s (utf8 " ")
      let value ← cutPrefix (s.dropWhile isTagByte) (utf8 "=\"")
      let more ← readAttrs n ((value.dropWhile (· ≠ 0x22)).drop 1)
      some ((toLower (s.takeWhile isTagByte), value.takeWhile (· ≠ 0x22)) :: more)

def readTag (s : GoString) : Option Element := do
  let s ← cutPrefix s (utf8 "<")
  let name := s.takeWhile isTagByte
  if name = [] then none
  else do
    let attrs ← readAttrs s.length (s.dropWhile isTagByte)
    some ⟨toLower name, attrs⟩

/-- The elements of a page whose attributes all have double quotes and no character
references. -/
def startTags : HtmlParser := scan readTag

end TrainingPlatform.Content
