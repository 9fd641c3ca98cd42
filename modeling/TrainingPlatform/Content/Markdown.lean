import TrainingPlatform.Go.Regexp
import TrainingPlatform.Go.Text

/-!
# Markdown

The subset of Markdown lessons are written in, line by line.
-/

namespace TrainingPlatform.Content

open Go Go.Re

def lineDot : Re := noneOf (utf8 "\n")
def blankRe : Re := set isBlank
def headingRe : Re :=
  all [bol, group 1 (upTo (byte 0x23) 3), many1 blankRe, group 2 (many lineDot), eol]
def listRe : Re :=
  all [bol, set (· ∈ utf8 "-*"), many1 blankRe, group 1 (many lineDot), eol]
def codeRe : Re := all [lit (utf8 "`"), group 1 (many1 (noneOf (utf8 "`"))), lit (utf8 "`")]
def boldRe : Re := all [lit (utf8 "**"), group 1 (many1 (noneOf (utf8 "*"))), lit (utf8 "**")]
def termInfoRe : Re :=
  all [bol, lit (utf8 ".term"), group 1 (set fun b => 0x31 ≤ b && b ≤ 0x36), eol]
def termRefRe : Re :=
  all [lit (utf8 "data-term=\""), opt (all [opt (lit (utf8 ".")), lit (utf8 "term")]),
    group 1 (many1 digit), lit (utf8 "\"")]
def linkRe : Re :=
  all [lit (utf8 "["), group 1 (many1 (noneOf (utf8 "]"))), lit (utf8 "]("),
    group 2 (many1 (noneOf (utf8 ")"))), lit (utf8 ")"),
    group 3 (many (all [lit (utf8 "\x7b:"), many (noneOf (utf8 "\x7b\x7d")), lit (utf8 "\x7d")]))]
def ialAttrRe : Re :=
  all [lit (utf8 "\x7b:"), many blankRe,
    group 1 (all [set letter, many (set fun b => letter b || (0x30 ≤ b && b ≤ 0x39) || b = 0x2D)]),
    lit (utf8 "=&#34;"), group 2 (many (noneOf (utf8 "&\x7b\x7d"))), lit (utf8 "&#34;"),
    many blankRe, lit (utf8 "\x7d")]

/-- Attributes of inert names only. -/
def ialAttrs (ials : GoString) : GoString :=
  (findAll ialAttrRe ials).flatMap fun m =>
    let name := m.group 1
    if name ≠ utf8 "id" && name ≠ utf8 "class" && !hasPrefix name (utf8 "data-") then []
    else utf8 " " ++ name ++ utf8 "=\"" ++ m.group 2 ++ utf8 "\""

def inline (s : GoString) : GoString :=
  let s := replaceAll codeRe (fun m => utf8 "<code>" ++ m.group 1 ++ utf8 "</code>") s
  let s := replaceAll boldRe (fun m => utf8 "<strong>" ++ m.group 1 ++ utf8 "</strong>") s
  replaceAll linkRe (fun m => utf8 "<a href=\"" ++ m.group 2 ++ utf8 "\"" ++ ialAttrs (m.group 3) ++
    utf8 ">" ++ m.group 1 ++ utf8 "</a>") s

def fence : GoString := utf8 "```"

def codeBlock (info code : GoString) : GoString :=
  match find termInfoRe info with
  | some m => utf8 "<pre class=\"term-code\" data-term=\"" ++ m.group 1 ++
      utf8 "\" title=\"click to run in terminal " ++ m.group 1 ++ utf8 "\"><code>" ++ code ++
      utf8 "</code></pre>"
  | none => utf8 "<pre><code>" ++ code ++ utf8 "</code></pre>"

def heading (m : Match) : GoString :=
  let n := itoa (m.group 1).length
  utf8 "<h" ++ n ++ utf8 ">" ++ inline (escapeString (m.group 2)) ++ utf8 "</h" ++ n ++ utf8 ">"

def listItem (l : GoString) : GoString :=
  utf8 "<li>" ++ inline (escapeString (((find listRe l).map (Match.group · 1)).getD [])) ++
    utf8 "</li>"

/-- The loop over the lines; every round takes at least one. -/
def renderLines : Nat → List GoString → List GoString
  | 0, _ => []
  | _, [] => []
  | n + 1, l :: ls =>
    if hasPrefix l fence then
      let buf := ls.takeWhile fun l => !hasPrefix l fence
      -- The closing fence is dropped; at the end of the text there is none.
      codeBlock (trimSpace (trimPrefix l fence)) (join (buf.map escapeString) (utf8 "\n")) ::
        renderLines n (ls.drop (buf.length + 1))
    else match find headingRe l with
      | some m => heading m :: renderLines n ls
      | none =>
        if isMatch listRe l then
          let items := (l :: ls).takeWhile (isMatch listRe)
          (utf8 "<ul>" ++ (items.map listItem).flatten ++ utf8 "</ul>") ::
            renderLines n ((l :: ls).drop items.length)
        else if trimSpace l = [] then renderLines n ls
        else if hasPrefix (trimSpace l) (utf8 "<") then l :: renderLines n ls
        else (utf8 "<p>" ++ inline (escapeString l) ++ utf8 "</p>") :: renderLines n ls

def renderMarkdown (src : GoString) : GoString :=
  let lines := segments src
  join (renderLines lines.length lines) (utf8 "\n")

end TrainingPlatform.Content
