import TrainingPlatform.Content.Build
import TrainingPlatform.Go.Path

/-!
# Serving a site

The handler for the files of a built site, over the parts of `http.FileServer` and
`http.ServeFile` that a plain GET reaches.  The HTML of a directory listing is an
argument.
-/

namespace TrainingPlatform.Lessons

open Go Content

/-- A response to a GET: its status, its `Location` header and its body. -/
structure Response where
  status : Nat
  location : GoString
  body : GoString

def content (bytes : GoString) : Response := ⟨200, [], bytes⟩
def localRedirect (location : GoString) : Response := ⟨301, location, []⟩
def httpError (status : Nat) (text : String) : Response := ⟨status, [], utf8 text ++ utf8 "\n"⟩

def indexPage : GoString := utf8 "/index.html"

/-- A path of the directory that is a directory. -/
def isDirectory (o : OutDir) (name : GoString) : Bool := name = [] || o.dirs name

/-- `serveFile` of package `net/http`; `name` is relative to the served directory and
`redirect` asks for the canonical path. -/
def serveFile (dirList : OutDir → GoString → GoString) (o : OutDir) (url name : GoString)
    (redirect : Bool) : Response :=
  if hasSuffix url indexPage then localRedirect (utf8 "./")
  else
    match o.files name with
    | some bytes =>
      if redirect && hasSuffix url [slash] then
        if pathBase url = [slash] || pathBase url = utf8 "." then
          httpError 500 "http: attempting to traverse a non-directory"
        else localRedirect (utf8 "../" ++ pathBase url)
      else content bytes
    | none =>
      if isDirectory o name then
        if !hasSuffix url [slash] then localRedirect (pathBase url ++ [slash])
        else
          match o.files (if name = [] then utf8 "index.html" else name ++ indexPage) with
          | some bytes => content bytes
          | none => ⟨200, [], dirList o name⟩
      else httpError 404 "404 page not found"

/-- `http.FileServer(http.Dir(dir))`. -/
def fileServer (dirList : OutDir → GoString → GoString) (o : OutDir) (urlPath : GoString) :
    Response :=
  let url := if hasPrefix urlPath [slash] then urlPath else slash :: urlPath
  serveFile dirList o url (cleanRooted url) true

def placeholder (msg : GoString) : Response :=
  content (utf8 "training-platform: " ++ msg ++ utf8 "\n")

/-- `Handler(dir)` on a GET of `urlPath`; `root` is the directory, if there is one. -/
def Handler (dirList : OutDir → GoString → GoString) (dir : GoString) (root : Option OutDir)
    (urlPath : GoString) : Response :=
  if dir = [] then placeholder (utf8 "no lesson directory configured (set lessons.dir)")
  else
    match root with
    | none => placeholder (utf8 "lesson directory not found: " ++ dir)
    | some o =>
      if (o.files (cleanRooted urlPath)).isSome then fileServer dirList o urlPath
      else if (o.files indexFile).isSome || o.dirs indexFile then
        -- `http.ServeFile(w, r, index)`.
        if containsDotDot urlPath then httpError 400 "invalid URL path"
        else serveFile dirList o urlPath indexFile false
      else fileServer dirList o urlPath

end TrainingPlatform.Lessons
