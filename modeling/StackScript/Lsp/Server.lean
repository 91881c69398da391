import StackScript.Lsp.Wire
import StackScript.Lsp.Features

/-! # The language server

The server keeps the text of every open document and answers requests one message at a time.
Until it is initialized, and again after `shutdown`, every request but `initialize` fails
with `server not initialized` (code -32600). It then answers `initialize` with its
capabilities (whole-text sync, completion), `shutdown` with null, and `completion` with the
completions at a place of an open document (null for a document it does not have); other
methods fail with `method not supported` (code -32601), and parameters that do not fit the
method fail with code -32602. Opening a document, or changing it by a change that gives the
whole text last, publishes its diagnostics; closing it publishes an empty list. `exit` and a
broken message end the connection. Notifications are never answered.
-/

namespace StackScript

namespace Lsp

/-- A position in a document. -/
def positionShape : Shape := .record "Position" [("line", .unsigned), ("character", .unsigned)]

/-- A document named by its address. -/
def identifierShape : Shape := .record "TextDocumentIdentifier" [("uri", .text)]

/-- The parameters of `initialize`. -/
def initializeShape : Shape :=
  .record "InitializeParams" [("processId", .signed),
    ("clientInfo", .record "" [("name", .text), ("version", .text)]),
    ("locale", .text), ("rootPath", .text), ("rootUri", .text),
    ("initializationOptions", .anything), ("capabilities", .anything), ("trace", .text),
    ("workspaceFolders", .list "[]protocol.WorkspaceFolder"
      (.record "WorkspaceFolder" [("uri", .text), ("name", .text)])),
    ("workDoneToken", .anything)]

/-- The parameters of `initialized`. -/
def initializedShape : Shape := .record "InitializedParams" []

/-- The parameters of `$/setTrace`. -/
def traceShape : Shape := .record "SetTraceParams" [("value", .text)]

/-- The parameters of `textDocument/didOpen`. -/
def openShape : Shape :=
  .record "DidOpenTextDocumentParams" [("textDocument", .record "TextDocumentItem"
    [("uri", .text), ("languageId", .text), ("version", .signed), ("text", .text)])]

/-- The parameters of `textDocument/didChange`, before its changes are read. -/
def changeShape : Shape :=
  .record "" [("textDocument", .record "VersionedTextDocumentIdentifier"
      [("uri", .text), ("version", .signed)]),
    ("contentChanges", .list "[]json.RawMessage" .anything)]

/-- One change of a document. -/
def changeEventShape : Shape :=
  .record "TextDocumentContentChangeEvent"
    [("range", .record "Range" [("start", positionShape), ("end", positionShape)]),
     ("rangeLength", .unsigned), ("text", .text)]

/-- The parameters of `textDocument/didClose`. -/
def closeShape : Shape := .record "DidCloseTextDocumentParams" [("textDocument", identifierShape)]

/-- The parameters of `textDocument/completion`. -/
def completionShape : Shape :=
  .record "CompletionParams" [("textDocument", identifierShape), ("position", positionShape),
    ("workDoneToken", .anything), ("partialResultToken", .anything),
    ("context", .record "CompletionContext" [("triggerKind", .signed), ("triggerCharacter", .text)])]

/-- The values at a path of fields, in the order the text gives them: a field given twice
fills the same structure twice. -/
def valuesAt : List String → Json → List Json
  | [], v => [v]
  | k :: ks, .obj fs => (fs.filter (sameKey ·.1 k)).flatMap fun e => valuesAt ks e.2
  | _ :: _, _ => []

/-- The text at a path: the last one given there that is not null, else empty. -/
def textAt (path : List String) (j : Json) : String :=
  match ((valuesAt path j).reverse.find? (· != .null)) with
  | some (.str s) => s
  | _ => ""

/-- The number at a path: the last one given there that is not null, else zero. -/
def numberAt (path : List String) (j : Json) : Nat :=
  match ((valuesAt path j).reverse.find? (· != .null)) with
  | some (.num m 0) => m.toNat
  | _ => 0

/-- What a change gives: the whole new text, or none for a change of a range. -/
def changeText (change : Json) : Option String :=
  match (valuesAt ["range"] change).getLast? with
  | none | some .null => some (textAt ["text"] change)
  | some _ => none

/-- The changes of `didChange`, or the first error reading them. -/
def changesOf (params : Json) : Except String (List Json) :=
  let changes := match (valuesAt ["contentChanges"] params).getLast? with
    | some (.arr items) => items
    | _ => []
  match changes.findSome? (check none changeEventShape) with
  | some e => .error e
  | none => .ok changes

/-- The server's capabilities and name. -/
def initializeResult : Json :=
  .obj [("capabilities", .obj [
      ("textDocumentSync", .obj [("openClose", .bool true), ("change", .nat 1)]),
      ("completionProvider", .obj [])]),
    ("serverInfo", .obj [("name", .str "azura-lsp"), ("version", .str "dev")])]

/-- A place as the protocol writes it. -/
def placeJson (p : Place) : Json := .obj [("line", .nat p.line), ("character", .nat p.character)]

/-- The notification that publishes a document's diagnostics. -/
def publish (uri : String) (marks : List Mark) : Json :=
  .obj [("jsonrpc", .str "2.0"), ("method", .str "textDocument/publishDiagnostics"),
    ("params", .obj [("uri", .str uri), ("diagnostics", .arr (marks.map fun d =>
      .obj [("range", .obj [("start", placeJson d.start), ("end", placeJson d.stop)]),
        ("severity", .nat 1), ("source", .str "azura-lsp"), ("message", .str d.message)]))])]

/-- The completions as the protocol writes them. -/
def completionItems (items : List (Bytes × Offer)) : Json :=
  .arr (items.map fun (label, kind) => .obj [("label", .str (lossy label)), ("kind", .nat kind.code)])

/-- The answer to a request. -/
def answer (id : RequestId) : Except (Int × String) Json → Json
  | .ok r => .obj [("id", id.toJson), ("result", r), ("jsonrpc", .str "2.0")]
  | .error (code, message) =>
    .obj [("id", id.toJson), ("error", .obj [("code", .int code), ("message", .str message)]),
      ("jsonrpc", .str "2.0")]

/-- The state of the server. -/
structure Server where
  initialized : Bool := false
  documents : List (String × String) := []
  /-- Input read but not yet taken as frames. -/
  buffer : Bytes := []
  closed : Bool := false

namespace Server

/-- The text of an open document. -/
def document? (s : Server) (uri : String) : Option String :=
  (s.documents.find? (·.1 == uri)).map (·.2)

/-- Stores a document's text. -/
def store (s : Server) (uri text : String) : Server :=
  { s with documents := (uri, text) :: s.documents.filter (·.1 != uri) }

/-- Runs a method; answers the new state, its result or its error, and the notifications it
sends. -/
def perform (s : Server) (method : String) (params : Option Json) :
    Server × Except (Int × String) Json × List Json :=
  let invalid (e : String) : Server × Except (Int × String) Json × List Json := (s, .error (-32602, e), [])
  if !s.initialized && method != "initialize" then (s, .error (-32600, "server not initialized"), [])
  else match method with
    | "initialize" =>
      match checkParams initializeShape params with
      | some e => invalid e
      | none => ({ s with initialized := true }, .ok initializeResult, [])
    | "initialized" =>
      match checkParams initializedShape params with
      | some e => invalid e
      | none => (s, .ok .null, [])
    | "shutdown" => ({ s with initialized := false }, .ok .null, [])
    | "$/setTrace" =>
      match checkParams traceShape params with
      | some e => invalid e
      | none => (s, .ok .null, [])
    | "textDocument/didOpen" =>
      match checkParams openShape params with
      | some e => invalid e
      | none =>
        let p := params.getD .null
        let uri := textAt ["textDocument", "uri"] p
        let text := textAt ["textDocument", "text"] p
        (s.store uri text, .ok .null, [publish uri (diagnose (Bytes.ofString text))])
    | "textDocument/didChange" =>
      match checkParams changeShape params with
      | some e => invalid e
      | none =>
        let p := params.getD .null
        match changesOf p with
        | .error e => invalid e
        | .ok changes =>
          let uri := textAt ["textDocument", "uri"] p
          match changes.getLast?.bind changeText with
          | some text => (s.store uri text, .ok .null, [publish uri (diagnose (Bytes.ofString text))])
          | none => (s, .ok .null, [])
    | "textDocument/didClose" =>
      match checkParams closeShape params with
      | some e => invalid e
      | none =>
        let uri := textAt ["textDocument", "uri"] (params.getD .null)
        ({ s with documents := s.documents.filter (·.1 != uri) }, .ok .null, [publish uri []])
    | "textDocument/completion" =>
      match checkParams completionShape params with
      | some e => invalid e
      | none =>
        let p := params.getD .null
        match s.document? (textAt ["textDocument", "uri"] p) with
        | none => (s, .ok .null, [])
        | some text =>
          let place : Place := ⟨numberAt ["position", "line"] p, numberAt ["position", "character"] p⟩
          (s, .ok (completionItems (complete (Bytes.ofString text) place)), [])
    | _ => (s, .error (-32601, "method not supported: " ++ method), [])

/-- Handles one message; answers the new state and what the server sends. -/
def step (s : Server) : Incoming → Server × List Json
  | .broken => ({ s with closed := true }, [])
  | .reply => (s, [])
  | .notice method params =>
    if method == "exit" then ({ s with closed := true }, [])
    else
      let (s, _, notes) := s.perform method params
      (s, notes)
  | .call method id params =>
    if method == "exit" then ({ s with closed := true }, [])
    else
      let (s, r, notes) := s.perform method params
      (s, answer id r :: notes)

/-- Takes the frames of the buffer, at most `fuel` of them, until it needs more input or the
connection ends; `ended` says whether the input has ended. -/
def drainFrames (ended : Bool) : Nat → Server → Server × List Json
  | 0, s => (s, [])
  | fuel + 1, s =>
    if s.closed then (s, [])
    else
      match nextFrame ended s.buffer with
      | .wait => (s, [])
      | .broken => ({ s with closed := true, buffer := [] }, [])
      | .body content rest =>
        let s := { s with buffer := rest }
        let incoming := match bodyValue content with
          | some v => classify v
          | none => .broken
        let (s, sent) := s.step incoming
        let (s, more) := drainFrames ended fuel s
        (s, sent ++ more)

/-- How many bytes the body of the message under way still needs, when its header lines have
all arrived. -/
def missing (s : Server) : Option Nat := missingBody (s.buffer.length + 1) s.buffer none

/-- Reads more input; answers the new state and what the server sends. At the end of the input
(`ended`) the connection ends. -/
def feed (s : Server) (input : Bytes) (ended : Bool) : Server × List Json :=
  if s.closed then (s, [])
  else
    let s := { s with buffer := s.buffer ++ input }
    let (s, sent) := drainFrames ended (s.buffer.length + 1) s
    (if ended then { s with closed := true } else s, sent)

end Server

end Lsp

end StackScript
