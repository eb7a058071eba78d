import MainframeRag.Lib.Fallible
import MainframeRag.Lib.JsonText

/-!
# Knowledge requests

`handle_request` and `run_tool` of `mcp/knowledge.py`: what one decoded JSON-RPC message is answered
with. A call of a tool waits for the backend once; `handleRequest` is the part before that wait and
`finishTool` the part behind it.
-/

namespace MainframeRag.Mcp.Knowledge

open PyText PyJson Fallible JsonText

variable {F : Type} (N : Numbers F) (fl : Floats F)

def protocolVersion : Text := "2025-03-26".toList

def supportedProtocols : List Text :=
  ["2024-11-05".toList, "2025-03-26".toList, "2025-06-18".toList]

def serverInfo : Json F :=
  .obj [("name".toList, .str "mainframe-knowledge".toList), ("version".toList, .str "0.1.0".toList)]

def parseErrorCode : Int := -32700
def invalidRequest : Int := -32600
def methodNotFound : Int := -32601
def invalidParams : Int := -32602
def internalError : Int := -32000

/-! ## Tools -/

def typeOf (name : String) : Json F := .obj [("type".toList, .str name.toList)]

def bounded (lo hi : Int) : Json F :=
  .obj [("type".toList, .str "integer".toList), ("minimum".toList, .int lo),
    ("maximum".toList, .int hi)]

def inputSchema (properties : List (String × Json F)) (required : List String) : Json F :=
  .obj ([("type".toList, .str "object".toList),
    ("properties".toList, .obj (properties.map fun p => (p.1.toList, p.2)))] ++
    if required = [] then [] else
      [("required".toList, .arr (required.map fun r => .str r.toList))])

/-- `TOOL_SCHEMAS` -/
def toolSchemas : List (Text × Items F) :=
  [("knowledge_search".toList,
    [("description".toList, .str ("Search the indexed manuals (no LLM). Each hit carries its " ++
        "stored text, citation and, when an exact read can be promised, an opaque " ++
        "\x60reference\x60.").toList),
      ("inputSchema".toList, inputSchema [("query", typeOf "string"), ("product", typeOf "string"),
        ("version", typeOf "string"), ("limit", bounded 1 40)] ["query"])]),
    ("evidence_read".toList,
      [("description".toList, .str ("Read the exact stored evidence for a \x60reference\x60 from " ++
          "knowledge_search: complete chunk text, source revision, document/page identity, chunk " ++
          "identity and atomic-unit byte ranges. Refuses explicitly (unavailable, over budget, " ++
          "...); never returns a prefix or another build's text.").toList),
        ("inputSchema".toList, inputSchema [("reference", typeOf "string"),
          ("max_bytes", bounded 1 1048576), ("product", typeOf "string"),
          ("version", typeOf "string")] ["reference"])]),
    ("sources_list".toList,
      [("description".toList, .str ("List the sources (published manual revisions) of the served " ++
          "build: revision, document id, title, product, version, chunk count and page range. " ++
          "Metadata only. Follow \x60next_cursor\x60 until it is null; a short or empty page with " ++
          "a cursor is not the end. There is no total.").toList),
        ("inputSchema".toList, inputSchema [("limit", bounded 1 200), ("cursor", typeOf "string"),
          ("product", typeOf "string"), ("version", typeOf "string")] [])])]

/-- `_FALLBACK_MESSAGES` -/
def fallbackMessage (name : Text) : Text :=
  if name = "sources_list".toList then "sources listing failed".toList
  else "evidence read failed".toList

inductive Reply (F : Type)
  | ok (id : Json F) (result : Json F)
  | error (id : Json F) (code : Int) (message : Text)

/-- What ends a call of a tool early. -/
inductive ToolError
  | valueError (message : Text)
  | other

/-- `_opt_str` -/
def optStr (args : Items F) (name : String) : Except ToolError (Option Text) :=
  match get args name.toList with
  | .null => .ok none
  | .str t => .ok (some t)
  | _ => .error (.valueError (name ++ " must be a string").toList)

/-- `_int` -/
def intArg (args : Items F) (name : String) (lo hi : Int) (default : Option Int) :
    Except ToolError (Option Int) :=
  let refused := .error (.valueError (name.toList ++ " must be an integer in [".toList ++
    decimal lo ++ ", ".toList ++ decimal hi ++ "]".toList))
  match args.lookup name.toList with
  | none => .ok default
  | some .null => .ok none
  | some (.int n) => if lo ≤ n ∧ n ≤ hi then .ok (some n) else refused
  | some _ => refused

inductive Call
  | search (query : Text) (product version : Option Text) (limit : Int)
  | read (reference : Text) (maxBytes : Option Int) (product version : Option Text)
  | listSources (limit : Int) (cursor product version : Option Text)

/-- `run_tool` before the backend is awaited. -/
def planTool (name : Text) (args : Items F) : Except ToolError Call :=
  if name = "knowledge_search".toList then do
    let query ← match get args "query".toList with
      | .str t => if strip t ≠ [] then .ok t else
        .error (.valueError "query (required) must be a non-empty string".toList)
      | _ => .error (.valueError "query (required) must be a non-empty string".toList)
    let limit ← orRaise (← intArg args "limit" 1 40 (some 8)) .other
    let product ← optStr args "product"
    let version ← optStr args "version"
    .ok (.search query product version limit)
  else if name = "evidence_read".toList then do
    let reference ← match get args "reference".toList with
      | .str t => if t ≠ [] then .ok t else
        .error (.valueError "reference (required) must be a string".toList)
      | _ => .error (.valueError "reference (required) must be a string".toList)
    let maxBytes ← intArg args "max_bytes" 1 1048576 none
    let product ← optStr args "product"
    let version ← optStr args "version"
    .ok (.read reference maxBytes product version)
  else if name = "sources_list".toList then do
    let limit ← orRaise (← intArg args "limit" 1 200 (some 50)) .other
    let cursor ← optStr args "cursor"
    let product ← optStr args "product"
    let version ← optStr args "version"
    .ok (.listSources limit cursor product version)
  else .error .other

/-- `_result` -/
def toolResult (status : Int) (body : Items F) (fallback : Text) : Json F :=
  if 200 ≤ status ∧ status < 300 then
    .obj [("content".toList, .arr [.obj [("type".toList, .str "text".toList),
      ("text".toList, .str (render fl ⟨false, true⟩ (.obj body)))]])]
  else
    let (code, message) := match get body "code".toList, get body "message".toList with
      | .str code, .str message => (code, message)
      | _, _ => ("upstream_error".toList, fallback)
    let envelope : Json F := .obj [("code".toList, .str code), ("message".toList, .str message),
      ("status".toList, .int status)]
    .obj [("isError".toList, .bool true),
      ("content".toList, .arr [.obj [("type".toList, .str "text".toList),
        ("text".toList, .str (render fl plainStyle envelope))]])]

/-! ## Requests -/

/-- How an awaited call of the backend ends. -/
inductive BackendEnd (F : Type)
  | answer (status : Int) (body : Items F)
  /-- `HTTPError` or `OSError` -/
  | unreachable
  | valueError (message : Text)
  | raised
  /-- `CancelledError` -/
  | cancelled

/-- How a handler task ends. -/
inductive Outcome (F : Type)
  | returned (reply : Option (Reply F))
  | raised
  | cancelled

/-- What `handle_request` comes to before it waits. -/
inductive Handled (F : Type)
  | ended (o : Outcome F)
  | waits (id : Json F) (name : Text) (call : Call)

def refusedCall (id : Json F) (message : Text) : Outcome F :=
  .returned (some (.error id invalidParams ("invalid tool call: ".toList ++ message)))

/-- The branch of `tools/call`. -/
def callTool (id : Json F) (params : Items F) : Handled F :=
  match get params "name".toList with
  | .str name =>
    if name ∈ (toolSchemas : List (Text × Items F)).map Prod.fst then
      match (get params "arguments".toList).orElse N (.obj []) with
      | .obj args =>
        match planTool name args with
        | .ok call => .waits id name call
        | .error (.valueError message) => .ended (refusedCall id message)
        | .error .other => .ended .raised
      | _ => .ended (.returned (some (.error id invalidParams "arguments must be an object".toList)))
    else .ended (.returned (some (.error id invalidParams "unknown tool".toList)))
  | _ => .ended (.returned (some (.error id invalidParams "unknown tool".toList)))

def initializeResult (params : Items F) : Json F :=
  let negotiated := match params.lookup "protocolVersion".toList with
    | some (.str requested) =>
      if requested ∈ supportedProtocols then requested else protocolVersion
    | _ => protocolVersion
  .obj [("protocolVersion".toList, .str negotiated),
    ("capabilities".toList, .obj [("tools".toList, .obj [])]), ("serverInfo".toList, serverInfo)]

def toolList : Json F :=
  .obj [("tools".toList, .arr (toolSchemas.map fun s => .obj (("name".toList, .str s.1) :: s.2)))]

/-- `handle_request` up to its wait. -/
def handleRequest (message : Json F) : Handled F :=
  let reply (r : Reply F) : Handled F := .ended (.returned (some r))
  match message with
  | .obj d =>
    let id := get d "id".toList
    match get d "method".toList with
    | .str method =>
      match (get d "params".toList).orElse N (.obj []) with
      | .obj params =>
        if method = "notifications/initialized".toList ∨ method = "notifications/cancelled".toList then
          .ended (.returned none)
        else if method = "initialize".toList then reply (.ok id (initializeResult params))
        else if method = "ping".toList then reply (.ok id (.obj []))
        else if method = "tools/list".toList then reply (.ok id toolList)
        else if method = "tools/call".toList then callTool N id params
        else reply (.error id methodNotFound ("unsupported method: ".toList ++ method))
      | _ => reply (.error id invalidParams "params must be an object".toList)
    | _ => reply (.error id invalidRequest "missing method".toList)
  | _ => reply (.error .null invalidRequest "request must be an object".toList)

/-- `run_tool` and `handle_request` behind the wait. -/
def finishTool (id : Json F) (name : Text) : BackendEnd F → Outcome F
  | .answer status body => .returned (some (.ok id (toolResult fl status body (fallbackMessage name))))
  | .unreachable => .returned (some (.ok id (toolResult fl 502 [] (fallbackMessage name))))
  | .valueError message => refusedCall id message
  | .raised => .raised
  | .cancelled => .cancelled

/-- `message.get("method") == name` of a dict. -/
def isMethod (name : String) : Json F → Bool
  | .obj d => match get d "method".toList with
    | .str method => method = name.toList
    | _ => false
  | _ => false

/-- A reply, or an exception. -/
def Outcome.answers : Outcome F → Prop
  | .returned reply => reply.isSome
  | .raised => True
  | .cancelled => False

theorem callTool_answers {id : Json F} {params : Items F} {o : Outcome F}
    (h : callTool N id params = .ended o) : o.answers := by
  unfold callTool at h
  split at h
  · split at h
    · split at h
      · split at h <;> cases h <;> trivial
      · cases h
        rfl
    · cases h
      rfl
  · cases h
    rfl

/-- A call of a tool that does not wait is answered, or raises. -/
theorem handleRequest_answers {message : Json F} {o : Outcome F}
    (hm : isMethod "tools/call" message = true) (h : handleRequest N message = .ended o) :
    o.answers := by
  unfold isMethod at hm
  split at hm
  · next d =>
    split at hm
    · next method hmethod =>
      have hname : method = "tools/call".toList := of_decide_eq_true hm
      unfold handleRequest at h
      simp only [hmethod, hname] at h
      split at h
      · simp only [String.toList_inj, String.reduceEq, or_self, if_false, if_true] at h
        exact callTool_answers N h
      · cases h
        rfl
    · cases hm
  · cases hm

/-- Only a call of a tool waits. -/
theorem handleRequest_waits {message : Json F} {id : Json F} {name : Text} {call : Call}
    (h : handleRequest N message = .waits id name call) : isMethod "tools/call" message = true := by
  unfold handleRequest at h
  dsimp only at h
  split at h
  · split at h
    · next d method hmethod =>
      rw [isMethod]
      simp only [hmethod]
      split at h
      · split at h
        · cases h
        · split at h
          · cases h
          · split at h
            · cases h
            · split at h
              · cases h
              · split at h
                · next hname => exact decide_eq_true hname
                · cases h
      · cases h
    · cases h
  · cases h

theorem finishTool_answers {id : Json F} {name : Text} {e : BackendEnd F} :
    (finishTool fl id name e).answers ↔ e ≠ .cancelled := by
  cases e <;> simp [finishTool, Outcome.answers, refusedCall]

end MainframeRag.Mcp.Knowledge
