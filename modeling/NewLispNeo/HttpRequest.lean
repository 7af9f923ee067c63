/-
How the HTTP server of nl-web.c finds the file of a request: `url_decode`, `endsWith`,
`getMediaType`, `handleHTTPcgi` and `executeHTTPrequest`.
-/
import NewLispNeo.Json
import NewLispNeo.Outcome
import NewLispNeo.PathTree
import Mathlib.Data.List.DropRight

namespace NewLispNeo.Http

open Json PathTree

/-- The bytes of a name in a directory. -/
abbrev Name := List UInt8

def dot : Name := ascii "."
def dotdot : Name := ascii ".."

/-- The requests of newlisp.h that the server answers. -/
inductive RequestType where
  | get | head | put | post | delete
deriving DecidableEq

/-- A string and what stands before it in its buffer. -/
structure Pointer where
  before : List UInt8
  text : List UInt8

/-- What names there are in directories. -/
structure FileTree extends LinkTree Name where
  names : ∀ path, (entry path).isSome →
    ∀ n ∈ path, n ≠ [] ∧ slash ∉ n ∧ 0 ∉ n ∧ n ≠ dot ∧ n ≠ dotdot

/-- The limit of the system on the links of a path. -/
def symloopMax : Nat := 40

/-- The components of a path; an empty one stands for the directory itself. -/
def components (path : List UInt8) : List (Step Name) :=
  (path.splitOn slash).map fun component =>
    if component = [] ∨ component = dot then .here
    else if component = dotdot then .up
    else .name component

namespace FileTree

variable (tree : FileTree) (cwd : List Name) (path : List UInt8)

/-- Where a relative path leads that exists. -/
def find : Option (List Name) := walk tree.toLinkTree false symloopMax cwd (components path)

/-- `chdir`. -/
def chdir : Option (List Name) :=
  (tree.find cwd path).filter fun dir => tree.entry dir = some .directory

/-- `isFile(path, 0) == 0`. -/
def isFile : Bool := (tree.find cwd path).isSome

/-- The file that is open after `open` for reading; a directory cannot be read. -/
def readable : Option (List Name) :=
  (tree.find cwd path).filter fun file => tree.entry file = some .file

/-- The file that `open` with `O_CREAT` opens for writing. -/
def writable : Option (List Name) :=
  (walk tree.toLinkTree true symloopMax cwd (components path)).filter fun file =>
    tree.entry file ≠ some .directory

/-- What `unlink` removes; a link is not followed. -/
def unlinked (name : Name) : Option (List Name) :=
  match tree.entry (cwd ++ [name]) with
  | none | some .directory => none
  | _ => some (cwd ++ [name])

end FileTree

/-- The server.  `tempDir` and `tempfile` say whether the output of a CGI program can be
stored, and `shell` which programs `/bin/sh` starts for a command in a directory. -/
structure Server where
  tree : FileTree
  startupDir : List Name
  isDir : tree.entry startupDir = some .directory
  httpSafe : Bool
  tempDir : Bool
  tempfile : Option (List UInt8)
  shell : List Name → List UInt8 → List (List Name)

/-- What `readHeader` returns, and whether the payload can be read. -/
structure Header where
  size : Nat
  pragmaFlag : Bool
  payload : Bool

/-- What a file is used for. -/
inductive FileUse where
  | read (file : List Name)
  | write (file : List Name) (append : Bool)
  | delete (file : List Name)
  | run (file : List Name)

def FileUse.file : FileUse → List Name
  | read file | write file _ | delete file | run file => file

/-- `sendHTTPpage` with its media type, or `sendHTTPmessage`. -/
inductive Reply where
  | page (media : Option (List UInt8))
  | message (status : Nat) (description : String)
deriving DecidableEq

structure Handled where
  reply : Reply
  files : List FileUse

def error404 : String := "File or Directory not found"
def error411 : String := "Length required for"
def defaultPage1 : Name := ascii "index.html"
def defaultPage2 : Name := ascii "index.cgi"
def cgiExtension : List UInt8 := ascii ".cgi"
def mediaText : List UInt8 := ascii "text/plain"

/-- `mediaType[]`. -/
def mediaTypes : List (String × String) :=
  [(".avi", "video/x-msvideo"), (".css", "text/css"), (".gif", "image/gif"),
    (".htm", "text/html"), (".html", "text/html"), (".jpg", "image/jpeg"),
    (".js", "application/javascript"), (".mov", "video/quicktime"), (".mp3", "audio/mpeg"),
    (".mpg", "video/mpeg"), (".pdf", "application/pdf"), (".png", "image/png"),
    (".wav", "audio/x-wav"), (".zip", "application/zip")]

/-- `url_decode`. -/
def urlDecode : List UInt8 → List UInt8
  | c :: a :: b :: src =>
      if c = 37 ∧ isHexDigit a ∧ isHexDigit b then
        UInt8.ofNat (16 * hexDigit a + hexDigit b) :: urlDecode src
      else c :: urlDecode (a :: b :: src)
  | c :: src => c :: urlDecode src
  | [] => []

/-- `endsWith`.  The comparison starts as far before the end of `str` as `ext` is long;
undefined where that is before the buffer. -/
def endsWith (str : Pointer) (ext : List UInt8) : Outcome Unit Bool :=
  if str.before.length + str.text.length < ext.length then .undefined
  else .value (ext.isSuffixOf (str.before ++ str.text))

/-- The loop of `getMediaType`. -/
def findMediaType (request : Pointer) : List (String × String) → Outcome Unit (List UInt8)
  | [] => .value mediaText
  | (extension, type) :: rest => do
      if ← endsWith request (ascii extension) then .value (ascii type)
      else findMediaType request rest

def getMediaType (request : Pointer) : Outcome Unit (List UInt8) :=
  findMediaType request mediaTypes

/-- The bytes that stand for something else between the double quotes of a shell. -/
def shellSpecial : List UInt8 := [34, 36, 92, 96]

/-- The programs started for `./"request" > "tempfile"`. -/
def started (srv : Server) (cwd : List Name) (request : Name) (tempfile : List UInt8) :
    List (List Name) :=
  if request.any (· ∈ shellSpecial) then
    srv.shell cwd (ascii "./\"" ++ request ++ ascii "\" > \"" ++ tempfile ++ ascii "\"")
  else (srv.tree.readable cwd request).toList

/-- `handleHTTPcgi`. -/
def handleHTTPcgi (srv : Server) (cwd : List Name) (request : Name) : Handled :=
  if srv.tree.isFile cwd request then
    if srv.tempDir then
      match srv.tempfile with
      | none => ⟨.message 500 "cannot create temp file", []⟩
      | some tempfile => ⟨.page none, (started srv cwd request tempfile).map .run⟩
    else ⟨.message 500 "cannot find tmp directory", []⟩
  else ⟨.message 404 error404, []⟩

/-- The `switch` of `executeHTTPrequest`. -/
def serve (srv : Server) (type : RequestType) (header : Header) (cwd : List Name)
    (request : Pointer) : Outcome Unit Handled :=
  match type with
  | .get | .head => do
      if ← endsWith request cgiExtension then .value (handleHTTPcgi srv cwd request.text)
      else
        let mediaType ← getMediaType request
        if type = .head then .value ⟨.page none, []⟩
        else
          match srv.tree.readable cwd request.text with
          | none => .value ⟨.message 404 error404, []⟩
          | some file => .value ⟨.page (some mediaType), [.read file]⟩
  | .delete =>
      if srv.httpSafe then .value ⟨.page (some mediaText), []⟩
      else
        match srv.tree.unlinked cwd request.text with
        | none => .value ⟨.message 500 "Could not delete", []⟩
        | some file => .value ⟨.page (some mediaText), [.delete file]⟩
  | .post =>
      if header.size = 0 then .value ⟨.message 411 error411, []⟩
      else if header.payload then .value (handleHTTPcgi srv cwd request.text)
      else .value ⟨.message 500 "Problem reading data", []⟩
  | .put =>
      if srv.httpSafe then .value ⟨.page (some request.text), []⟩
      else if header.size = 0 then .value ⟨.message 411 error411, []⟩
      else
        match srv.tree.writable cwd request.text with
        | none => .value ⟨.message 500 "cannot create file", []⟩
        | some file =>
            .value ⟨if header.payload then .page (some mediaText)
              else .message 500 "Problem reading data", [.write file header.pragmaFlag]⟩

def forbidden : Handled := ⟨.message 403 "Forbidden", []⟩

/-- `isalpha(request[0]) && request[1] == ':'`, in the C locale. -/
def hasDrive : List UInt8 → Bool
  | c :: d :: _ => (65 ≤ c && c ≤ 90 || 97 ≤ c && c ≤ 122) && d = colon
  | _ => false

/-- The test for path traversal sequences. -/
def traverses (request : Pointer) : Outcome Unit Bool :=
  if request.text = dotdot ∨ dotdot ++ [slash] <+: request.text ∨
      slash :: (dotdot ++ [slash]) <:+: request.text then .value true
  else endsWith request (slash :: dotdot)

/-- The result of `realpath`. -/
def canonicalText (path : List Name) : List UInt8 :=
  if path = [] then [slash] else spell slash path

/-- `strncmp(currentDir, startupDir, rootLen) == 0`, and `currentDir` ends there or goes on
with a slash or a backslash. -/
def remainsInside (currentDir startupDir : List UInt8) : Bool :=
  startupDir.isPrefixOf currentDir &&
    match (currentDir.drop startupDir.length).head? with
    | none => true
    | some c => c = slash || c = Json.backslash

/-- The directory part of a path, up to the last slash. -/
def directoryPart (path : List UInt8) : List UInt8 := (path.rdropWhile (· ≠ slash)).dropLast

/-- What is behind the last slash. -/
def lastPart (path : List UInt8) : Name := path.rtakeWhile (· ≠ slash)

/-- Change to the base directory of the request: the current directory and the rest of the
request, or the reply. -/
def changeDirectory (srv : Server) (request : Pointer) :
    Handled ⊕ List Name × Pointer :=
  if slash ∈ request.text then
    match srv.tree.chdir srv.startupDir (directoryPart request.text) with
    | none => .inl ⟨.message 404 error404, []⟩
    | some cwd =>
        if remainsInside (canonicalText cwd) (canonicalText srv.startupDir) then
          .inr (cwd, ⟨request.before ++ directoryPart request.text ++ [0],
            lastPart request.text⟩)
        else .inl forbidden
  else .inr (srv.startupDir, request)

/-- The page for a directory. -/
def defaultPage (srv : Server) (cwd : List Name) : Name :=
  if srv.tree.isFile cwd defaultPage2 then defaultPage2 else defaultPage1

/-- The last tests on the file name, and the `switch`. -/
def serveIn (srv : Server) (type : RequestType) (header : Header) (cwd : List Name)
    (request : Pointer) : Outcome Unit Handled :=
  if request.text = dotdot ∨ slash ∈ request.text ∨ Json.backslash ∈ request.text then
    .value forbidden
  else if request.text = [] then serve srv type header cwd ⟨[], defaultPage srv cwd⟩
  else serve srv type header cwd request

/-- The path of a request line, decoded and with slashes for backslashes.  `char` is
signed, so the first loop stops at bytes from 128 on. -/
def requestPath (request : List UInt8) : List UInt8 :=
  let line := request.takeWhile fun b => 33 ≤ b && b ≤ 127
  let path := line.takeWhile (· ≠ 63)
  ((urlDecode path).takeWhile (· ≠ 0)).map fun b => if b = Json.backslash then slash else b

/-- `request` behind the leading slashes. -/
def stripped (path : List UInt8) : Pointer :=
  ⟨path.takeWhile (· = slash), path.dropWhile (· = slash)⟩

/-- `executeHTTPrequest`. -/
def executeHTTPrequest (srv : Server) (type : RequestType) (header : Header)
    (request : List UInt8) : Outcome Unit Handled :=
  let request := stripped (requestPath request)
  if hasDrive request.text then .value forbidden
  else do
    if ← traverses request then .value forbidden
    else
      match changeDirectory srv request with
      | .inl handled => .value handled
      | .inr (cwd, request) => serveIn srv type header cwd request

end NewLispNeo.Http
