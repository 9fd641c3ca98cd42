import TrainingPlatform.Go.Json
import TrainingPlatform.Go.Path
import TrainingPlatform.Go.Url
import Mathlib.Data.List.Flatten

/-!
# Followed links

From a reference on a page to the path the server sees.  The browser parses the address
and encodes its path, and package `net/http` decodes the path of the request.  Of a
reference that starts with a slash nothing is added on the way: the server sees at most as
many ASCII bytes besides slashes, and as many only if the reference has no byte the two
treat apart.
-/

namespace Go

/-- `unescape` of package `url` in a path. -/
def pathUnescape : GoString → Option GoString
  | [] => some []
  | b :: s =>
    if b = 0x25 then
      match s with
      | hi :: lo :: s =>
        (Json.hexVal hi).bind fun h => (Json.hexVal lo).bind fun l =>
          (pathUnescape s).map (UInt8.ofNat (16 * h + l) :: ·)
      | _ => none
    else (pathUnescape s).map (b :: ·)

/-- The path `url.ParseRequestURI` finds in a request target without control bytes. -/
def requestPath (target : GoString) : Option GoString :=
  pathUnescape (target.takeWhile (· ≠ 0x3F))

def noLineBreak (b : UInt8) : Bool := b ≠ 0x09 && b ≠ 0x0A && b ≠ 0x0D

/-- The address of a reference that starts with a slash, on a page of `http://host`.  A
second slash starts a host of its own. -/
def rootedReference (host ref : GoString) : GoString :=
  if (ref.filter noLineBreak).tail.head?.any isUrlSlash then utf8 "http:" ++ ref
  else utf8 "http://" ++ host ++ ref

/-- The path the server at `host` sees when a reference on one of its pages is followed,
unless another host is asked or the server refuses the path. -/
def followedPath (host ref : GoString) : Option GoString :=
  (requestTarget (fun h => h = host) (rootedReference host ref)).bind requestPath

/-- A host as it stands in an address. -/
structure HostName (host : GoString) : Prop where
  ne_nil : host ≠ []
  plain : ∀ b ∈ host, 0x20 < b ∧ isUrlSlash b = false ∧ b ≠ 0x3F ∧ b ≠ 0x23

/-- The ASCII bytes besides slashes.  No other byte has a meaning of its own in a reference. -/
def letters (s : GoString) : GoString := s.filter fun b => b < 0x80 && b ≠ slash

/-! ## The address -/

/-- What is left of the text of a reference. -/
def referenceText (ref : GoString) : GoString :=
  ((ref.reverse.dropWhile (· ≤ 0x20)).reverse.filter noLineBreak).takeWhile (· ≠ 0x23)

/-- The path and the query behind the host. -/
def located (s : GoString) : GoString × Option GoString :=
  ((pathSegments [] ((s.takeWhile (· ≠ 0x3F)).tail.splitOnP isUrlSlash)).reverse.flatMap
      (0x2F :: ·),
    if s.dropWhile (· ≠ 0x3F) = [] then none else some (s.dropWhile (· ≠ 0x3F)).tail)

theorem referenceText_append {s ref : GoString} (hs : ∀ b ∈ s, noLineBreak b = true ∧ b ≠ 0x23)
    (href : ∃ b ∈ ref, 0x20 < b) : referenceText (s ++ ref) = s ++ referenceText ref := by
  have hdrop : ref.reverse.dropWhile (· ≤ 0x20) ≠ [] := by
    obtain ⟨b, hb, hlt⟩ := href
    intro hnil
    have hle := List.dropWhile_eq_nil_iff.mp hnil b (List.mem_reverse.mpr hb)
    exact absurd hlt (UInt8.not_lt.mpr (of_decide_eq_true hle))
  have htrim : ((s ++ ref).reverse.dropWhile (· ≤ 0x20)).reverse =
      s ++ (ref.reverse.dropWhile (· ≤ 0x20)).reverse := by
    rw [List.reverse_append, List.dropWhile_append, if_neg (by simpa using hdrop),
      List.reverse_append, List.reverse_reverse]
  have hfilter : s.filter noLineBreak = s := List.filter_eq_self.mpr fun b hb => (hs b hb).1
  rw [referenceText, htrim, List.filter_append, hfilter,
    List.takeWhile_append_of_pos fun b hb => decide_eq_true (hs b hb).2]
  rfl

theorem referenceText_slash (r : GoString) :
    referenceText (slash :: r) = slash :: referenceText r := by
  have htrim : ((slash :: r).reverse.dropWhile (· ≤ 0x20)).reverse =
      slash :: (r.reverse.dropWhile (· ≤ 0x20)).reverse := by
    rw [List.reverse_cons, List.dropWhile_append]
    split_ifs with hnil
    · rw [List.isEmpty_iff.mp hnil]
      rfl
    · rw [List.reverse_append]
      rfl
  rw [referenceText, htrim]
  rfl

/-- An address is what stands behind its scheme. -/
theorem parseUrl_http {acceptsHost : GoString → Bool} {ref : GoString}
    (href : ∃ b ∈ ref, 0x20 < b) :
    parseUrl acceptsHost (utf8 "http:" ++ ref) =
      let s := (referenceText ref).dropWhile isUrlSlash
      let host := s.takeWhile fun b => !isUrlSlash b && b ≠ 0x3F
      if !acceptsHost host then none else some (located (s.drop host.length)) := by
  have hscheme : ∀ b ∈ utf8 "http:", noLineBreak b = true ∧ b ≠ 0x23 := by decide +kernel
  have hstart : (utf8 "http:" ++ ref).dropWhile (· ≤ 0x20) = utf8 "http:" ++ ref := rfl
  have htext := referenceText_append hscheme href
  have htake : (utf8 "http:" ++ referenceText ref).takeWhile (· ≠ 0x3A) = utf8 "http" := rfl
  have hdrop : (utf8 "http:" ++ referenceText ref).dropWhile (· ≠ 0x3A) =
      0x3A :: referenceText ref := rfl
  have hs : (((utf8 "http:" ++ ref).reverse.dropWhile (· ≤ 0x20)).reverse.filter fun b =>
      b ≠ 0x09 && b ≠ 0x0A && b ≠ 0x0D).takeWhile (· ≠ 0x23) = utf8 "http:" ++ referenceText ref :=
    htext
  rw [parseUrl, hstart]
  simp only [hs, htake, hdrop]
  rfl

theorem referenceText_sublist (ref : GoString) : (referenceText ref).Sublist ref := by
  have htrim : (ref.reverse.dropWhile (· ≤ 0x20)).reverse.Sublist ref := by
    have hdrop := (List.dropWhile_sublist (l := ref.reverse) (· ≤ 0x20)).reverse
    rwa [List.reverse_reverse] at hdrop
  exact (List.takeWhile_sublist _).trans (List.filter_sublist.trans htrim)

theorem noLineBreak_of_mem_referenceText {ref : GoString} {b : UInt8} (h : b ∈ referenceText ref) :
    noLineBreak b = true ∧ b ≠ 0x23 := by
  have hhash := List.mem_takeWhile_imp h
  have hmem := (List.takeWhile_sublist _).mem h
  exact ⟨(List.mem_filter.mp hmem).2, of_decide_eq_true hhash⟩

/-! ## The path -/

theorem flatten_splitOnP {p : UInt8 → Bool} (s : GoString) :
    (s.splitOnP p).flatten = s.filter fun b => !p b := by
  induction s with
  | nil => rfl
  | cons b s ih =>
    rw [List.splitOnP_cons_eq_if_modifyHead, List.filter_cons]
    cases hb : p b with
    | true => simpa using ih
    | false =>
      have hhead : ∀ ss : List GoString, ss ≠ [] →
          (ss.modifyHead (List.cons b)).flatten = b :: ss.flatten := by
        intro ss hss
        obtain ⟨t, ss, rfl⟩ := List.exists_cons_of_ne_nil hss
        rfl
      simpa [ih] using hhead _ (List.splitOnP_ne_nil p s)

/-- Dots take segments away. -/
theorem pathSegments_sublist (path segments : List GoString) :
    (pathSegments path segments).reverse.flatten.Sublist
      (path.reverse.flatten ++ segments.flatten) := by
  have htail (path : List GoString) : path.tail.reverse.flatten.Sublist path.reverse.flatten :=
    ((List.tail_sublist path).reverse).flatten
  induction segments generalizing path with
  | nil => simp [pathSegments]
  | cons s segments ih =>
    cases segments with
    | nil =>
      rw [pathSegments]
      split_ifs
      · simpa using (htail path).trans (List.sublist_append_left _ s)
      · simp
      · simp
    | cons t segments =>
      have hbehind : (t :: segments).flatten.Sublist (s :: t :: segments).flatten :=
        List.sublist_append_right s _
      rw [pathSegments.eq_3 _ _ _ (List.cons_ne_nil t segments)]
      split_ifs
      · exact (ih path.tail).trans ((htail path).append hbehind)
      · exact (ih path).trans ((List.Sublist.refl _).append hbehind)
      · simpa using ih (s :: path)

@[simp] theorem letters_append (s t : GoString) : letters (s ++ t) = letters s ++ letters t :=
  List.filter_append ..

theorem letters_cons {b : UInt8} (hb : b < 0x80 ∧ b ≠ slash) (s : GoString) :
    letters (b :: s) = b :: letters s :=
  List.filter_cons_of_pos (by simpa using hb)

theorem letters_cons_of_not {b : UInt8} (hb : ¬ (b < 0x80 ∧ b ≠ slash)) (s : GoString) :
    letters (b :: s) = letters s :=
  List.filter_cons_of_neg (by simpa using hb)

@[simp] theorem letters_letters (s : GoString) : letters (letters s) = letters s := by
  simp [letters]

@[simp] theorem letters_slash (s : GoString) : letters (slash :: s) = letters s := rfl

theorem length_letters_cons_le (b : UInt8) (s : GoString) :
    (letters (b :: s)).length ≤ (letters s).length + 1 := by
  by_cases hb : b < 0x80 ∧ b ≠ slash
  · rw [letters_cons hb, List.length_cons]
  · rw [letters_cons_of_not hb]
    omega

theorem letters_flatMap_slash (segments : List GoString) :
    letters (segments.flatMap (0x2F :: ·)) = letters segments.flatten := by
  induction segments with
  | nil => rfl
  | cons s segments ih =>
    rw [List.flatMap_cons, List.flatten_cons, letters_append, letters_append, ih]
    rfl

/-- The path keeps of the text no byte but letters, and of these no backslash. -/
theorem letters_located_sublist (s : GoString) :
    (letters (located s).1).Sublist
      ((s.takeWhile (· ≠ 0x3F)).filter fun b => !isUrlSlash b) := by
  have hsegments := pathSegments_sublist [] ((s.takeWhile (· ≠ 0x3F)).tail.splitOnP isUrlSlash)
  rw [List.reverse_nil, List.flatten_nil, List.nil_append, flatten_splitOnP] at hsegments
  rw [located, letters_flatMap_slash]
  exact List.filter_sublist.trans (hsegments.trans ((List.tail_sublist _).filter _))

/-! ## Percent-decoding -/

theorem hexVal_upperHex : ∀ n < 16, Json.hexVal (upperHex n) = some n := by decide

theorem pathUnescape_cons {b : UInt8} (hb : b ≠ 0x25) (s : GoString) :
    pathUnescape (b :: s) = (pathUnescape s).map (b :: ·) := by
  rw [pathUnescape.eq_def]
  exact if_neg hb

theorem pathUnescape_percentByte (b : UInt8) (s : GoString) :
    pathUnescape (percentByte b ++ s) = (pathUnescape s).map (b :: ·) := by
  have hlt : b.toNat < 256 := b.toNat_lt
  have hbyte : UInt8.ofNat (16 * (b.toNat / 16) + b.toNat % 16) = b := by
    rw [Nat.div_add_mod, UInt8.ofNat_toNat]
  show pathUnescape (0x25 :: upperHex (b.toNat / 16) :: upperHex (b.toNat % 16) :: s) = _
  rw [pathUnescape, if_pos rfl, hexVal_upperHex (b.toNat / 16) (by omega),
    hexVal_upperHex (b.toNat % 16) (by omega), Option.bind_some, Option.bind_some, hbyte]

/-- Two digits have to follow the sign. -/
theorem pathUnescape_sign {s q : GoString} (h : pathUnescape (0x25 :: s) = some q) :
    ∃ hi lo t b q', s = hi :: lo :: t ∧ (Json.hexVal hi).isSome ∧ (Json.hexVal lo).isSome ∧
      pathUnescape t = some q' ∧ q = b :: q' := by
  rw [pathUnescape.eq_def] at h
  dsimp only at h
  rw [if_pos rfl] at h
  split at h
  · rename_i hi lo t
    obtain ⟨m, hm, h⟩ := Option.bind_eq_some_iff.mp h
    obtain ⟨n, hn, h⟩ := Option.bind_eq_some_iff.mp h
    obtain ⟨q', hq', rfl⟩ := Option.map_eq_some_iff.mp h
    exact ⟨hi, lo, t, _, q', rfl, hm ▸ rfl, hn ▸ rfl, hq', rfl⟩
  · cases h

/-- What was not encoded before comes back as it was. -/
theorem pathUnescape_percentEncode {keep : UInt8 → Bool} {p : GoString} (hp : 0x25 ∉ p) :
    pathUnescape (percentEncode keep p) = some p := by
  induction p with
  | nil => rfl
  | cons b p ih =>
    rw [List.mem_cons, not_or] at hp
    cases hb : keep b with
    | true => rw [percentEncode_cons_of_kept hb, pathUnescape_cons (Ne.symm hp.1), ih hp.2]; rfl
    | false => rw [percentEncode_cons_of_not_kept hb, pathUnescape_percentByte, ih hp.2]; rfl

theorem letter_of_hexVal {b : UInt8} (h : (Json.hexVal b).isSome) :
    (b < 0x80 ∧ b ≠ slash) ∧ b ≠ 0x25 := by
  have hall : ∀ n < 256, (Json.hexVal (UInt8.ofNat n)).isSome →
      (UInt8.ofNat n < 0x80 ∧ UInt8.ofNat n ≠ slash) ∧ UInt8.ofNat n ≠ 0x25 := by decide +kernel
  have hb := hall b.toNat b.toNat_lt
  rw [UInt8.ofNat_toNat] at hb
  exact hb h

/-- Decoding adds no byte, and takes some away where a sign was written. -/
theorem length_letters_decoded {keep : UInt8 → Bool} (hsign : keep 0x25 = true) {p q : GoString}
    (h : pathUnescape (percentEncode keep p) = some q) :
    (letters q).length ≤ (letters p).length ∧
      (0x25 ∈ p → (letters q).length < (letters p).length) := by
  induction hn : p.length using Nat.strong_induction_on generalizing p q with
  | _ n ih =>
    subst hn
    cases p with
    | nil =>
      cases h
      exact ⟨le_rfl, nofun⟩
    | cons b p =>
      by_cases hb : b = 0x25
      · subst hb
        rw [percentEncode_cons_of_kept hsign] at h
        obtain ⟨hi, lo, t, c, q', ht, hhi, hlo, hq', rfl⟩ := pathUnescape_sign h
        obtain ⟨hhigh, hhigh'⟩ := letter_of_hexVal hhi
        obtain ⟨hlow, hlow'⟩ := letter_of_hexVal hlo
        obtain ⟨-, p₁, rfl, h₁⟩ := exists_of_percentEncode_eq_cons hhigh' ht
        obtain ⟨-, p₂, rfl, rfl⟩ := exists_of_percentEncode_eq_cons hlow' h₁
        have hrest := (ih p₂.length (by simp; omega) hq' rfl).1
        have hfirst := length_letters_cons_le c q'
        have hsign' : (0x25 : UInt8) < 0x80 ∧ (0x25 : UInt8) ≠ slash := by decide
        rw [letters_cons hsign', letters_cons hhigh, letters_cons hlow]
        simp only [List.length_cons]
        exact ⟨by omega, fun _ => by omega⟩
      · have hstep : ∃ q', pathUnescape (percentEncode keep p) = some q' ∧ q = b :: q' := by
          cases hkeep : keep b with
          | true =>
            rw [percentEncode_cons_of_kept hkeep, pathUnescape_cons hb] at h
            obtain ⟨q', hq', rfl⟩ := Option.map_eq_some_iff.mp h
            exact ⟨q', hq', rfl⟩
          | false =>
            rw [percentEncode_cons_of_not_kept hkeep, pathUnescape_percentByte] at h
            obtain ⟨q', hq', rfl⟩ := Option.map_eq_some_iff.mp h
            exact ⟨q', hq', rfl⟩
        obtain ⟨q', hq', rfl⟩ := hstep
        obtain ⟨hle, hlt⟩ := ih p.length (by simp) hq' rfl
        rw [List.mem_cons, or_iff_right (Ne.symm hb)]
        by_cases hletter : b < 0x80 ∧ b ≠ slash
        · rw [letters_cons hletter, letters_cons hletter, List.length_cons, List.length_cons]
          exact ⟨Nat.succ_le_succ hle, fun hmem => Nat.succ_lt_succ (hlt hmem)⟩
        · rw [letters_cons_of_not hletter, letters_cons_of_not hletter]
          exact ⟨hle, hlt⟩

/-- The query starts at the first question mark. -/
theorem takeWhile_target (path : GoString) (query : Option GoString) :
    (percentEncode keptInPath path ++
      (query.map fun query => 0x3F :: percentEncode keptInQuery query).getD []).takeWhile
        (· ≠ 0x3F) = percentEncode keptInPath path := by
  have hpath : ∀ b ∈ percentEncode keptInPath path, decide (b ≠ 0x3F) = true := by
    intro b hb
    refine decide_eq_true ?_
    rintro rfl
    exact question_not_mem_percentEncode (by decide) path hb
  rw [List.takeWhile_append_of_pos hpath]
  cases query with
  | none => exact List.append_nil _
  | some query => exact List.append_nil _

/-! ## The path that is asked for -/

/-- A byte browser and server read alike. -/
def isPlain (b : UInt8) : Bool :=
  noLineBreak b && !isUrlSlash b && b ≠ 0x3F && b ≠ 0x23 && b ≠ 0x25

theorem isPlain_iff {b : UInt8} : isPlain b = true ↔
    noLineBreak b = true ∧ isUrlSlash b = false ∧ b ≠ 0x3F ∧ b ≠ 0x23 ∧ b ≠ 0x25 := by
  simp [isPlain, and_assoc]

/-- Of a text without slashes only the letters can fail to be plain. -/
theorem isPlain_of_letters {s : GoString} (hs : slash ∉ s)
    (h : ∀ b ∈ letters s, isPlain b = true) : ∀ b ∈ s, isPlain b = true := by
  intro b hb
  have hne : b ≠ slash := fun heq => hs (heq ▸ hb)
  by_cases hlt : b < 0x80
  · exact h b (List.mem_filter.mpr ⟨hb, by simp [hlt, hne]⟩)
  · have hnot {c : UInt8} (hc : c < 0x80) : b ≠ c := by
      rintro rfl
      exact hlt hc
    simp [isPlain, noLineBreak, isUrlSlash, hnot]

variable {host ref : GoString}

theorem parseUrl_host {acceptsHost : GoString → Bool} (hhost : HostName host) (r : GoString) :
    parseUrl acceptsHost (utf8 "http://" ++ host ++ slash :: r) =
      if !acceptsHost host then none else some (located (referenceText (slash :: r))) := by
  have hmem : ∃ b ∈ slash :: r, 0x20 < b := ⟨slash, List.mem_cons_self, by decide⟩
  have hplain : ∀ b ∈ utf8 "//" ++ host, noLineBreak b = true ∧ b ≠ 0x23 := by
    intro b hb
    have hslashes : ∀ b ∈ utf8 "//", noLineBreak b = true ∧ b ≠ 0x23 := by decide +kernel
    rcases List.mem_append.mp hb with hb | hb
    · exact hslashes b hb
    · obtain ⟨hlt, -, -, hhash⟩ := hhost.plain b hb
      refine ⟨?_, hhash⟩
      have hne : b ≠ 0x09 ∧ b ≠ 0x0A ∧ b ≠ 0x0D := by
        refine ⟨?_, ?_, ?_⟩ <;>
        · rintro rfl
          exact absurd hlt (by decide)
      simp [noLineBreak, hne]
  have htext : referenceText (utf8 "//" ++ host ++ slash :: r) =
      utf8 "//" ++ host ++ referenceText (slash :: r) := referenceText_append hplain hmem
  have hurl : utf8 "http://" ++ host ++ slash :: r =
      utf8 "http:" ++ (utf8 "//" ++ host ++ slash :: r) := by
    rw [← List.append_assoc, ← List.append_assoc]
    rfl
  have hdrop (t : GoString) :
      (utf8 "//" ++ host ++ slash :: t).dropWhile isUrlSlash = host ++ slash :: t := by
    obtain ⟨b, bs, hb⟩ := List.exists_cons_of_ne_nil hhost.ne_nil
    have hfirst := (hhost.plain b (hb ▸ List.mem_cons_self)).2.1
    show (host ++ slash :: t).dropWhile isUrlSlash = _
    rw [hb, List.cons_append, List.dropWhile_cons_of_neg (by simp [hfirst])]
  have htake (t : GoString) :
      (host ++ slash :: t).takeWhile (fun b => !isUrlSlash b && b ≠ 0x3F) = host := by
    rw [List.takeWhile_append_of_pos fun b hb => ?_]
    · exact List.append_nil host
    · obtain ⟨-, hslash, hquery, -⟩ := hhost.plain b hb
      simp [hslash, hquery]
  have hmem' : ∃ b ∈ utf8 "//" ++ host ++ slash :: r, 0x20 < b :=
    ⟨slash, List.mem_append_right _ List.mem_cons_self, by decide⟩
  rw [hurl, parseUrl_http hmem', htext, referenceText_slash]
  simp only [hdrop, htake, List.drop_left]

/-- The path that is asked for comes from what is left of the reference. -/
theorem exists_located {path : GoString} {query : Option GoString} (hhost : HostName host)
    (href : hasPrefix ref [slash] = true)
    (h : parseUrl (fun h => h = host) (rootedReference host ref) = some (path, query)) :
    ∃ s, s.Sublist (referenceText ref) ∧ path = (located s).1 := by
  obtain ⟨r, rfl⟩ := List.isPrefixOf_iff_prefix.mp href
  have hmem : ∃ b ∈ slash :: r, 0x20 < b := ⟨slash, List.mem_cons_self, by decide⟩
  rw [rootedReference] at h
  split_ifs at h
  · rw [List.singleton_append, parseUrl_http hmem] at h
    dsimp only at h
    split_ifs at h
    refine ⟨_, ?_, (congrArg Prod.fst (Option.some.inj h)).symm⟩
    exact (List.drop_sublist _ _).trans (List.dropWhile_sublist _)
  · rw [List.singleton_append, parseUrl_host hhost] at h
    split_ifs at h
    exact ⟨_, List.Sublist.refl _, (congrArg Prod.fst (Option.some.inj h)).symm⟩

theorem followedPath_eq_some {q : GoString} (h : followedPath host ref = some q) :
    ∃ path query, parseUrl (fun h => h = host) (rootedReference host ref) = some (path, query) ∧
      pathUnescape (percentEncode keptInPath path) = some q := by
  obtain ⟨target, htarget, hq⟩ := Option.bind_eq_some_iff.mp h
  obtain ⟨⟨path, query⟩, hparse, rfl⟩ := Option.map_eq_some_iff.mp htarget
  refine ⟨path, query, hparse, ?_⟩
  rwa [requestPath, takeWhile_target] at hq

/-- A reference leads to no path with more letters, and to one with as many only when these are
its own and all plain. -/
theorem letters_followedPath {q : GoString} (hhost : HostName host)
    (href : hasPrefix ref [slash] = true) (h : followedPath host ref = some q) :
    (letters q).length ≤ (letters ref).length ∧
      ((letters q).length = (letters ref).length →
        letters q = letters ref ∧ ∀ b ∈ letters ref, isPlain b = true) := by
  obtain ⟨path, query, hparse, hdecode⟩ := followedPath_eq_some h
  obtain ⟨s, hs, rfl⟩ := exists_located hhost href hparse
  have hsub := letters_located_sublist s
  have hkept : ∀ b ∈ letters (located s).1,
      noLineBreak b = true ∧ isUrlSlash b = false ∧ b ≠ 0x3F ∧ b ≠ 0x23 := by
    intro b hb
    obtain ⟨htake, hslash⟩ := List.mem_filter.mp (hsub.mem hb)
    obtain ⟨hbreak, hhash⟩ :=
      noLineBreak_of_mem_referenceText (hs.mem ((List.takeWhile_sublist _).mem htake))
    have hquery := List.mem_takeWhile_imp htake
    exact ⟨hbreak, by simpa using hslash, of_decide_eq_true hquery, hhash⟩
  have hletters : (letters (located s).1).Sublist (letters ref) := by
    have hfrom := hsub.trans (List.filter_sublist.trans ((List.takeWhile_sublist _).trans
      (hs.trans (referenceText_sublist ref))))
    have hself : (letters (letters (located s).1)).Sublist (letters ref) := hfrom.filter _
    rwa [letters_letters] at hself
  obtain ⟨hle, hlt⟩ := length_letters_decoded (by decide) hdecode
  refine ⟨hle.trans hletters.length_le, fun heq => ?_⟩
  have hsame : letters (located s).1 = letters ref :=
    hletters.eq_of_length (le_antisymm hletters.length_le (heq ▸ hle))
  have hsign : 0x25 ∉ (located s).1 := by
    intro hmem
    have hshort := hlt hmem
    rw [heq, hsame] at hshort
    exact lt_irrefl _ hshort
  rw [pathUnescape_percentEncode hsign, Option.some.injEq] at hdecode
  refine ⟨hdecode ▸ hsame, fun b hb => ?_⟩
  obtain ⟨hbreak, hslash, hquery, hhash⟩ := hkept b (hsame ▸ hb)
  have hne : b ≠ 0x25 := by
    rintro rfl
    exact hsign (List.mem_of_mem_filter (hsame ▸ hb))
  exact isPlain_iff.mpr ⟨hbreak, hslash, hquery, hhash, hne⟩

/-- One segment of plain bytes is asked for as it stands. -/
theorem followedPath_segment {seg : GoString} {last : UInt8} (hhost : HostName host)
    (hplain : ∀ b ∈ seg, isPlain b = true) (hlast : seg.getLast? = some last) (hspace : 0x20 < last)
    (hsingle : isSingleDot seg = false) (hdouble : isDoubleDot seg = false) :
    followedPath host (slash :: seg) = some (slash :: seg) := by
  have hbreak : seg.filter noLineBreak = seg :=
    List.filter_eq_self.mpr fun b hb => (isPlain_iff.mp (hplain b hb)).1
  have htext : referenceText seg = seg := by
    have htrim : seg.reverse.dropWhile (· ≤ 0x20) = seg.reverse := by
      obtain ⟨init, rfl⟩ := List.getLast?_eq_some_iff.mp hlast
      rw [List.reverse_append, List.reverse_singleton, List.singleton_append,
        List.dropWhile_cons_of_neg (by simpa using UInt8.not_le.mpr hspace)]
    rw [referenceText, htrim, List.reverse_reverse, hbreak]
    exact List.takeWhile_eq_self_iff.mpr fun b hb =>
      decide_eq_true (isPlain_iff.mp (hplain b hb)).2.2.2.1
  have hquery : ∀ b ∈ slash :: seg, decide (b ≠ 0x3F) = true := by
    intro b hb
    rcases List.mem_cons.mp hb with rfl | hb
    · rfl
    · exact decide_eq_true (isPlain_iff.mp (hplain b hb)).2.2.1
  have hlocated : located (slash :: seg) = (slash :: seg, none) := by
    have hsplit : seg.splitOnP isUrlSlash = [seg] :=
      List.splitOnP_eq_singleton fun b hb => (isPlain_iff.mp (hplain b hb)).2.1
    have hsegments : pathSegments [] [seg] = [seg] := by
      rw [pathSegments, hdouble, hsingle]
      rfl
    rw [located, List.takeWhile_eq_self_iff.mpr hquery, List.dropWhile_eq_nil_iff.mpr hquery,
      List.tail_cons, hsplit, hsegments]
    simp [slash]
  have hrooted : rootedReference host (slash :: seg) = utf8 "http://" ++ host ++ slash :: seg := by
    have hnot : ((slash :: seg).filter noLineBreak).tail.head?.any isUrlSlash = false := by
      rw [List.filter_cons_of_pos (by decide), hbreak, List.tail_cons]
      cases seg with
      | nil => rfl
      | cons b seg => exact (isPlain_iff.mp (hplain b List.mem_cons_self)).2.1
    rw [rootedReference, hnot, if_neg Bool.false_ne_true]
  have hsign : 0x25 ∉ slash :: seg := by
    rw [List.mem_cons, not_or]
    exact ⟨by decide, fun hmem => (isPlain_iff.mp (hplain _ hmem)).2.2.2.2 rfl⟩
  rw [followedPath, requestTarget, hrooted, parseUrl_host hhost, referenceText_slash, htext,
    hlocated, decide_eq_true rfl, Bool.not_true, if_neg Bool.false_ne_true, Option.map_some,
    Option.bind_some, requestPath, takeWhile_target, pathUnescape_percentEncode hsign]

end Go
