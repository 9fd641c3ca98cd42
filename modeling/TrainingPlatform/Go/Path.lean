import TrainingPlatform.Go.Text

/-!
# Slash-separated paths
-/

namespace Go

def slash : UInt8 := 0x2F

/-- An element of a path on the stack of the elements before it. -/
def cleanStep (stack : List GoString) (elem : GoString) : List GoString :=
  if elem = [] ∨ elem = utf8 "." then stack
  else if elem = utf8 ".." then stack.tail
  else elem :: stack

/-- `path.Clean("/" + p)` without the leading slash. -/
def cleanRooted (p : GoString) : GoString :=
  join ((p.splitOn slash).foldl cleanStep []).reverse [slash]

/-- `path.Base`. -/
def pathBase (p : GoString) : GoString :=
  if p = [] then utf8 "."
  else
    let elem := (p.reverse.dropWhile (· = slash)).takeWhile (· ≠ slash)
    if elem = [] then [slash] else elem.reverse

/-- `containsDotDot` of package `net/http`. -/
def containsDotDot (p : GoString) : Bool :=
  (p.splitOnP fun b => b = slash || b = 0x5C).any fun elem => elem = utf8 ".."

theorem cleanRooted_slash (p : GoString) : cleanRooted (slash :: p) = cleanRooted p := by
  have hsplit : (slash :: p).splitOn slash = [] :: p.splitOn slash := by
    rw [List.splitOn, List.splitOnP_cons_eq_if_modifyHead, if_pos (by simp)]
    rfl
  rw [cleanRooted, hsplit, List.foldl_cons, cleanStep, if_pos (.inl rfl)]
  rfl

/-- A path of one element that is no dots is clean. -/
theorem cleanRooted_elem {elem : GoString} (hne : elem ≠ []) (hslash : slash ∉ elem)
    (hdot : elem ≠ utf8 ".") (hdots : elem ≠ utf8 "..") : cleanRooted elem = elem := by
  have hsplit : elem.splitOn slash = [elem] :=
    List.splitOnP_eq_singleton fun b hb => beq_eq_false_iff_ne.mpr fun heq => hslash (heq ▸ hb)
  rw [cleanRooted, hsplit, List.foldl_cons, List.foldl_nil, cleanStep,
    if_neg (not_or.mpr ⟨hne, hdot⟩), if_neg hdots]
  exact List.append_nil elem

theorem hasSuffix_slash {u v : GoString} (hne : v ≠ []) (hv : slash ∉ v) :
    hasSuffix (u ++ v) [slash] = false := by
  rw [Bool.eq_false_iff]
  intro h
  obtain ⟨t, ht⟩ := List.isSuffixOf_iff_suffix.mp h
  have hlast : v.getLast? = some slash := by
    rw [← List.getLast?_append_of_ne_nil u hne, ← ht, List.getLast?_concat]
  exact hv (List.mem_of_getLast? hlast)

end Go
