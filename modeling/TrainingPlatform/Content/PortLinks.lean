import TrainingPlatform.Content.TermRefs
import TrainingPlatform.Go.Url
import TrainingPlatform.Router.Host

/-!
# Links to exposed ports on a page

Whenever a session comes up the script of a page writes the address of each link to a port
anew, over the one it wrote before.  What a link needs of its authored text stays with it.
-/

namespace TrainingPlatform.Content

open Go

/-- A terminal's Pod; `null` is as good as empty. -/
structure PortNode where
  pod : GoString
  ip : GoString
  deriving DecidableEq

/-- What the script reads besides the page: `routerHost` is `none` before the first answer of
`/api/v1/config`, and `config` is that answer, `none` where it fails. -/
structure PortState where
  nodes : List PortNode
  routerHost : Option GoString
  config : Option GoString
  protocol : GoString
  origin : GoString

/-- `routerHost` as the links are written with. -/
def PortState.host (st : PortState) : GoString := st.routerHost.getD (st.config.getD [])

/-- The node of a link. -/
def PortState.node (st : PortState) (e : Element) : Option PortNode :=
  st.nodes[(nodeFromTermRef e.termRef - 1).toNat]?

/-- The bytes `encodeURIComponent` leaves alone. -/
def keptInComponent (b : UInt8) : Bool :=
  Re.letter b || isDecimal b || (utf8 "-_.!~*'()").contains b

def encodeURIComponent (s : GoString) : GoString := percentEncode keptInComponent s

/-- `replace(/:?$/, ':')`. -/
def withColon (s : GoString) : GoString := if hasSuffix s (utf8 ":") then s else s ++ utf8 ":"

/-- The path in the `href` of a link. -/
def Element.hrefPath (e : Element) : GoString :=
  let href := orDefault (e.value "href") (utf8 "/")
  if hasPrefix href (utf8 "/") then href else utf8 "/"

/-- The path a link is written with, from before it is: `data-path`, or the one in its
`href`. -/
def Element.authoredPath (e : Element) : GoString := orDefault (e.value "data-path") e.hrefPath

/-- The address of a link with this path at a node. -/
def linkUrl (st : PortState) (node : PortNode) (e : Element) (path : GoString) : GoString :=
  let host := Router.linkHost (e.value "data-host-prefix") node.ip node.pod (e.value "data-port")
    st.host
  let proto := withColon (orDefault (e.value "data-protocol") st.protocol)
  let url := proto ++ utf8 "//" ++ host ++ path
  let hashCode := e.value "data-hash-code"
  if hashCode = [] then url
  else
    url ++ (if path.contains 0x3F then utf8 "&" else utf8 "?") ++ utf8 "hash_code=" ++
      encodeURIComponent hashCode ++ utf8 "&lessonsDomain=" ++ encodeURIComponent st.origin ++
      utf8 "&ctfdDomain=" ++ encodeURIComponent st.origin

/-- The body of the loop of `rewritePortLinks`. -/
def rewriteLink (st : PortState) (e : Element) : Element :=
  match st.node e with
  | none => e
  | some node =>
    if node.ip = [] then e
    else if st.host = [] then
      e.set (utf8 "title") (utf8 "exposed-port routing not configured (ROUTER_HOST)")
    else
      let e := if e.value "data-path" = [] then e.set (utf8 "data-path") e.hrefPath else e
      let url := linkUrl st node e (e.value "data-path")
      ((e.set (utf8 "href") url).set (utf8 "target") (utf8 "_blank")).set (utf8 "data-routed")
        (utf8 "1")

def rewritePortLinks (st : PortState) (page : List Element) : List Element :=
  page.map fun e => if e.isPortLink then rewriteLink st e else e

/-- The page after the script has run under some states, one after the other. -/
def rewriteAll (states : List PortState) (page : List Element) : List Element :=
  states.foldl (fun page st => rewritePortLinks st page) page

/-- The attributes the script writes. -/
def writtenAttrs : List GoString :=
  ["title", "data-path", "href", "target", "data-routed"].map utf8

/-- A link the script has been at: what it reads of the link is what was authored. -/
structure SameLink (e e' : Element) : Prop where
  name : e'.name = e.name
  attrs : ∀ n ∉ writtenAttrs, e'.attr n = e.attr n
  path : e'.authoredPath = e.authoredPath

/-- The script writes an address into the link. -/
structure Routed (st : PortState) (e : Element) (node : PortNode) : Prop where
  found : st.node e = some node
  ip : node.ip ≠ []
  host : st.host ≠ []

/-- The `href` of an element of a page. -/
def hrefAt (page : List Element) (i : Nat) : Option GoString :=
  page[i]?.bind fun e => e.attr (utf8 "href")

variable {st : PortState} {e e' : Element} {node : PortNode} {page : List Element}

/-! ## One run -/

theorem authoredPath_ne_nil (e : Element) : e.authoredPath ≠ [] := by
  rw [Element.authoredPath, orDefault]
  split_ifs with hpath
  · exact hpath
  · rw [Element.hrefPath]
    split_ifs with hslash
    · intro hnil
      rw [hnil] at hslash
      exact absurd hslash (by decide)
    · decide

theorem SameLink.refl (e : Element) : SameLink e e := ⟨rfl, fun _ _ => rfl, rfl⟩

theorem SameLink.value (h : SameLink e e') {name : String} (hn : utf8 name ∉ writtenAttrs) :
    e'.value name = e.value name := by
  rw [Element.value, Element.value, h.attrs _ hn]

/-- An address has nothing of the link but these attributes and its path. -/
theorem linkUrl_congr {path : GoString}
    (h : ∀ name ∈ ["data-host-prefix", "data-port", "data-protocol", "data-hash-code"],
      e'.value name = e.value name) : linkUrl st node e' path = linkUrl st node e path := by
  rw [linkUrl, linkUrl, h "data-host-prefix" (by decide), h "data-port" (by decide),
    h "data-protocol" (by decide), h "data-hash-code" (by decide)]

theorem authoredPath_congr (hpath : e'.value "data-path" = e.value "data-path")
    (hhref : e'.value "href" = e.value "href") : e'.authoredPath = e.authoredPath := by
  rw [Element.authoredPath, Element.authoredPath, Element.hrefPath, Element.hrefPath, hpath, hhref]

theorem SameLink.linkUrl_eq (h : SameLink e e') (st : PortState) (node : PortNode)
    (path : GoString) : linkUrl st node e' path = linkUrl st node e path := by
  refine linkUrl_congr fun name hname => h.value ?_
  revert name
  decide

theorem SameLink.isPortLink_eq (h : SameLink e e') : e'.isPortLink = e.isPortLink := by
  rw [Element.isPortLink, Element.isPortLink, h.name, h.attrs _ (by decide)]

theorem SameLink.routed (h : SameLink e e') (hst : Routed st e node) : Routed st e' node := by
  refine ⟨?_, hst.ip, hst.host⟩
  rw [PortState.node, Element.termRef, h.attrs _ (by decide)]
  exact hst.found

/-- The attributes of a link the script has written. -/
theorem attr_rewriteLink (h : Routed st e node) (n : GoString) :
    (rewriteLink st e).attr n =
      if n = utf8 "data-routed" then some (utf8 "1")
      else if n = utf8 "target" then some (utf8 "_blank")
      else if n = utf8 "href" then some (linkUrl st node e e.authoredPath)
      else if n = utf8 "data-path" then some e.authoredPath
      else e.attr n := by
  obtain ⟨stashed, hstashed, hpath, hothers⟩ : ∃ stashed : Element,
      stashed = (if e.value "data-path" = [] then e.set (utf8 "data-path") e.hrefPath else e) ∧
        stashed.attr (utf8 "data-path") = some e.authoredPath ∧
        ∀ n, n ≠ utf8 "data-path" → stashed.attr n = e.attr n := by
    refine ⟨_, rfl, ?_, fun n hn => ?_⟩
    · rw [Element.authoredPath, orDefault]
      by_cases hempty : e.value "data-path" = []
      · rw [if_pos hempty, if_neg (not_not.mpr hempty), Element.attr_set_self]
      · rw [if_neg hempty, if_pos hempty]
        rw [Element.value] at hempty ⊢
        cases hattr : e.attr (utf8 "data-path") with
        | none =>
          rw [hattr] at hempty
          exact absurd rfl hempty
        | some v => rfl
    · split_ifs
      · exact Element.attr_set_of_ne hn
      · rfl
  have hvalue : stashed.value "data-path" = e.authoredPath := by
    rw [Element.value, hpath, Option.getD_some]
  have hurl : ∀ path, linkUrl st node stashed path = linkUrl st node e path := by
    intro path
    refine linkUrl_congr fun name hname => ?_
    have hne : utf8 name ≠ utf8 "data-path" := by
      revert name
      decide
    rw [Element.value, Element.value, hothers _ hne]
  have hrun : rewriteLink st e = ((stashed.set (utf8 "href") (linkUrl st node e e.authoredPath)).set
      (utf8 "target") (utf8 "_blank")).set (utf8 "data-routed") (utf8 "1") := by
    rw [← hurl, ← hvalue, hstashed, rewriteLink, h.found]
    dsimp only
    rw [if_neg h.ip, if_neg h.host]
  rw [hrun]
  split_ifs with hrouted htarget hhref hdata
  · rw [hrouted, Element.attr_set_self]
  · rw [Element.attr_set_of_ne hrouted, htarget, Element.attr_set_self]
  · rw [Element.attr_set_of_ne hrouted, Element.attr_set_of_ne htarget, hhref,
      Element.attr_set_self]
  · rw [Element.attr_set_of_ne hrouted, Element.attr_set_of_ne htarget,
      Element.attr_set_of_ne hhref, hdata, hpath]
  · rw [Element.attr_set_of_ne hrouted, Element.attr_set_of_ne htarget,
      Element.attr_set_of_ne hhref, hothers n hdata]

/-- Either a run leaves the link alone, or it says that there is no router, or it writes an
address. -/
theorem rewriteLink_cases (st : PortState) (e : Element) :
    rewriteLink st e = e ∨
      rewriteLink st e = e.set (utf8 "title")
        (utf8 "exposed-port routing not configured (ROUTER_HOST)") ∨
      ∃ node, Routed st e node := by
  cases hnode : st.node e with
  | none => exact .inl (by rw [rewriteLink, hnode])
  | some node =>
    by_cases hip : node.ip = []
    · exact .inl (by rw [rewriteLink, hnode]; exact if_pos hip)
    · by_cases hhost : st.host = []
      · refine .inr (.inl ?_)
        rw [rewriteLink, hnode]
        exact (if_neg hip).trans (if_pos hhost)
      · exact .inr (.inr ⟨node, hnode, hip, hhost⟩)

theorem name_rewriteLink (st : PortState) (e : Element) : (rewriteLink st e).name = e.name := by
  rw [rewriteLink]
  cases st.node e with
  | none => rfl
  | some node =>
    dsimp only
    split_ifs
    · rfl
    · rfl
    · rfl
    · rfl

/-- A run leaves what it reads as it was authored. -/
theorem sameLink_rewriteLink (st : PortState) (e : Element) : SameLink e (rewriteLink st e) := by
  have hwritten : ∀ name ∈ writtenAttrs, ∀ n ∉ writtenAttrs, n ≠ name := by
    intro name hname n hn heq
    exact hn (heq ▸ hname)
  rcases rewriteLink_cases st e with hsame | htitle | ⟨node, hrouted⟩
  · rw [hsame]
    exact .refl e
  · rw [htitle]
    have hattr : ∀ n, n ≠ utf8 "title" → (e.set (utf8 "title")
        (utf8 "exposed-port routing not configured (ROUTER_HOST)")).attr n = e.attr n :=
      fun n hn => Element.attr_set_of_ne hn
    refine ⟨rfl, fun n hn => hattr n (hwritten _ (by decide) n hn), authoredPath_congr ?_ ?_⟩
    · rw [Element.value, hattr _ (by decide), Element.value]
    · rw [Element.value, hattr _ (by decide), Element.value]
  · refine ⟨name_rewriteLink st e, fun n hn => ?_, ?_⟩
    · rw [attr_rewriteLink hrouted, if_neg (hwritten _ (by decide) n hn),
        if_neg (hwritten _ (by decide) n hn), if_neg (hwritten _ (by decide) n hn),
        if_neg (hwritten _ (by decide) n hn)]
    · have hpath : (rewriteLink st e).value "data-path" = e.authoredPath := by
        rw [Element.value, attr_rewriteLink hrouted, if_neg (by decide), if_neg (by decide),
          if_neg (by decide), if_pos rfl, Option.getD_some]
      rw [Element.authoredPath, hpath, orDefault, if_pos (authoredPath_ne_nil e)]

/-! ## Any number of runs -/

theorem SameLink.trans {e'' : Element} (h : SameLink e e') (h' : SameLink e' e'') :
    SameLink e e'' :=
  ⟨h'.name.trans h.name, fun n hn => (h'.attrs n hn).trans (h.attrs n hn), h'.path.trans h.path⟩

/-- Every link of a page stays in its place. -/
theorem getElem?_rewriteAll (states : List PortState) {i : Nat} (he : page[i]? = some e)
    (hlink : e.isPortLink = true) :
    ∃ e', (rewriteAll states page)[i]? = some e' ∧ SameLink e e' := by
  induction states generalizing page e with
  | nil => exact ⟨e, he, .refl e⟩
  | cons st states ih =>
    have hone : (rewritePortLinks st page)[i]? = some (rewriteLink st e) := by
      rw [rewritePortLinks, List.getElem?_map, he, Option.map_some, if_pos hlink]
    have hsame := sameLink_rewriteLink st e
    obtain ⟨e', he', hrest⟩ := ih hone (hsame.isPortLink_eq.trans hlink)
    exact ⟨e', he', hsame.trans hrest⟩

theorem getElem?_rewritePortLinks {i : Nat} (he : page[i]? = some e) (hlink : e.isPortLink = true)
    (st : PortState) : (rewritePortLinks st page)[i]? = some (rewriteLink st e) := by
  rw [rewritePortLinks, List.getElem?_map, he, Option.map_some, if_pos hlink]

/-- Whatever states the script has run under before, under one that routes a link it writes
the address of that state, on the authored path and with the authored hash, and leaves the
link as it would on the authored page. -/
theorem rewritePortLinks_again (states : List PortState) {i : Nat} (he : page[i]? = some e)
    (hlink : e.isPortLink = true) (hst : Routed st e node) :
    hrefAt (rewritePortLinks st (rewriteAll states page)) i =
        hrefAt (rewritePortLinks st page) i ∧
      hrefAt (rewritePortLinks st page) i = some (linkUrl st node e e.authoredPath) ∧
      ∃ e₁ e₂, (rewritePortLinks st (rewriteAll states page))[i]? = some e₁ ∧
        (rewritePortLinks st page)[i]? = some e₂ ∧ e₁.name = e₂.name ∧
        (∀ n, n ≠ utf8 "title" → e₁.attr n = e₂.attr n) ∧
        e₁.attr (utf8 "data-path") = some e.authoredPath ∧
        e₁.attr (utf8 "data-hash-code") = e.attr (utf8 "data-hash-code") := by
  obtain ⟨e', he', hsame⟩ := getElem?_rewriteAll states he hlink
  have hagain := getElem?_rewritePortLinks he' (hsame.isPortLink_eq.trans hlink) st
  have honce := getElem?_rewritePortLinks he hlink st
  have hst' := hsame.routed hst
  have hattrs : ∀ n, n ≠ utf8 "title" → (rewriteLink st e').attr n = (rewriteLink st e).attr n := by
    intro n hn
    rw [attr_rewriteLink hst', attr_rewriteLink hst, hsame.linkUrl_eq, hsame.path]
    split_ifs with hrouted htarget hhref hdata
    · rfl
    · rfl
    · rfl
    · rfl
    · refine hsame.attrs n fun hmem => ?_
      simp only [writtenAttrs, List.map_cons, List.map_nil, List.mem_cons, List.not_mem_nil,
        or_false] at hmem
      tauto
  have hhref : (rewriteLink st e).attr (utf8 "href") = some (linkUrl st node e e.authoredPath) := by
    rw [attr_rewriteLink hst, if_neg (by decide), if_neg (by decide), if_pos rfl]
  refine ⟨?_, ?_, _, _, hagain, honce, ?_, hattrs, ?_, ?_⟩
  · rw [hrefAt, hrefAt, hagain, honce]
    exact hattrs _ (by decide)
  · rw [hrefAt, honce]
    exact hhref
  · rw [name_rewriteLink, name_rewriteLink, hsame.name]
  · rw [hattrs _ (by decide), attr_rewriteLink hst, if_neg (by decide), if_neg (by decide),
      if_neg (by decide), if_pos rfl]
  · rw [hattrs _ (by decide), (sameLink_rewriteLink st e).attrs _ (by decide)]

/-! ## A button in two sessions -/

def testButton : Element where
  name := utf8 "a"
  attrs := [("class", "exercise-demo"), ("data-hash-code", "4f2a"), ("data-port", "8888"),
    ("data-path", "/result.html"), ("data-term", ".term1"), ("href", "#")].map
      fun a => (utf8 a.1, utf8 a.2)

def portState (pod ip : String) : PortState where
  nodes := [⟨utf8 pod, utf8 ip⟩]
  routerHost := some (utf8 "direct.dev.test")
  config := none
  protocol := utf8 "https:"
  origin := utf8 "https://dev.test"

theorem rewritePortLinks_again_testButton :
    hrefAt (rewritePortLinks (portState "i-0b" "10.244.9.2")
        (rewriteAll [portState "i-0a" "10.244.9.1"] [testButton])) 0 =
      some (utf8 "https://ip10-244-9-2-i0b-8888.direct.dev.test/result.html?hash_code=4f2a" ++
        utf8 "&lessonsDomain=https%3A%2F%2Fdev.test&ctfdDomain=https%3A%2F%2Fdev.test") := by
  have hrouted : Routed (portState "i-0b" "10.244.9.2") testButton
      ⟨utf8 "i-0b", utf8 "10.244.9.2"⟩ :=
    ⟨by decide +kernel, by decide +kernel, by decide +kernel⟩
  have hbutton : [testButton][0]? = some testButton := rfl
  have h := rewritePortLinks_again [portState "i-0a" "10.244.9.1"] hbutton (by decide +kernel)
    hrouted
  rw [h.1, h.2.1]
  decide +kernel

end TrainingPlatform.Content
