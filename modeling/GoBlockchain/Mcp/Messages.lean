import GoBlockchain.Mcp.Tools

/-!
# The messages of the MCP daemon

`mcp.go` and `jsonrpc.go`. The daemon reads JSON-RPC messages line by line and writes its responses
as lines; `handleMessage` decodes a line into a `Request` and runs the method it names. What
`encoding/json` does is a parameter (`JsonLibrary`): parsing, which names of members are for which
field, and how a value of type `any` is decoded and encoded again. Which members set which field,
and in which order, is part of the model.

The decoded request does not say whether the message has an id: an absent id is decoded to nil like
the id null. So a message with a method is answered whatever its id is, with the one exception of
`notifications/initialized`, which is never answered (`exists_out_eq_append`). Over a run of the
daemon the ids of the responses are the ids of the other lines in order (`exists_out_run`). One
response for a message with an id and none for a message without is given exactly where the method
and the presence of the id agree (`answeredById_iff`).
-/

namespace GoBlockchain.Mcp

open Firewall

/-- A JSON value. -/
inductive Json
  | null
  | bool (b : Bool)
  | number (value : ℚ)
  | string (s : String)
  | array (elements : List Json)
  | object (members : List (String × Json))

/-- The member of an object with a given name. -/
def Json.member (name : String) : Json → Option Json
  | .object members => members.lookup name
  | _ => none

/-! ### Requests and responses -/

/-- The fields of `Request`. -/
inductive RequestField
  | jsonrpc
  | id
  | method
  | params
deriving DecidableEq, Repr

/-- The name under which a field is written. -/
def RequestField.name : RequestField → String
  | .jsonrpc => "jsonrpc"
  | .id => "id"
  | .method => "method"
  | .params => "params"

/-- `Request`, with values of `α` for those of type `any`. -/
structure Request (α : Type) where
  jsonrpc : String
  id : α
  method : String
  params : Option Json

/-- What the daemon uses of `encoding/json`. -/
structure JsonLibrary (α φ : Type) where
  parse : Bytes → Except String Json
  /-- The field a member is for: names are matched up to case. -/
  requestField : String → Option RequestField
  requestField_name : ∀ field, requestField field.name = some field
  /-- The text of the error for a value of the wrong type. -/
  typeError : Option RequestField → Json → String
  nil : α
  /-- Decode into a variable of type `any`. -/
  unmarshalAny : Json → Except String α
  marshalAny : α → Json
  unmarshalAny_null : unmarshalAny .null = .ok nil
  marshalAny_nil : marshalAny nil = .null
  /-- Texts are encoded as they were decoded; numbers need not be. -/
  marshalAny_string : ∀ s, (unmarshalAny (.string s)).map marshalAny = .ok (.string s)
  unmarshalInitializeParams : Json → Except String Unit
  unmarshalCallToolParams : Json → Except String (String × ByteMap (Value φ))

namespace JsonLibrary

variable {α φ : Type} (json : JsonLibrary α φ)

/-- Decode into a string, which null leaves as it is. -/
def unmarshalString (field : RequestField) (old : String) : Json → Except String String
  | .string s => .ok s
  | .null => .ok old
  | v => .error (json.typeError (some field) v)

/-- Decode one member into its field. -/
def unmarshalMember (req : Request α) (member : String × Json) : Except String (Request α) :=
  match json.requestField member.1 with
  | none => .ok req
  | some .jsonrpc =>
    (json.unmarshalString .jsonrpc req.jsonrpc member.2).map fun s ↦ { req with jsonrpc := s }
  | some .id => (json.unmarshalAny member.2).map fun a ↦ { req with id := a }
  | some .method =>
    (json.unmarshalString .method req.method member.2).map fun s ↦ { req with method := s }
  | some .params => .ok { req with params := some member.2 }

/-- Decode the members one after another: of several for one field the last one counts. -/
def unmarshalMembers : Request α → List (String × Json) → Except String (Request α)
  | req, [] => .ok req
  | req, member :: members =>
    match json.unmarshalMember req member with
    | .error e => .error e
    | .ok req => unmarshalMembers req members

/-- `json.Unmarshal` into a `Request`. -/
def unmarshalRequest (data : Bytes) : Except String (Request α) :=
  match json.parse data with
  | .error e => .error e
  | .ok (.object members) => json.unmarshalMembers ⟨"", json.nil, "", none⟩ members
  | .ok .null => .ok ⟨"", json.nil, "", none⟩
  | .ok v => .error (json.typeError none v)

end JsonLibrary

def parseError : ℤ := -32700
def invalidRequest : ℤ := -32600
def methodNotFound : ℤ := -32601
def invalidParams : ℤ := -32602
def internalError : ℤ := -32603

/-- `Error` of a response. -/
structure RPCError where
  code : ℤ
  message : String
  data : Option String

/-- `Response`. -/
structure RPCResponse (α : Type) where
  id : α
  result : Option Json
  error : Option RPCError

def newResponse {α : Type} (id : α) (result : Json) : RPCResponse α := ⟨id, some result, none⟩

def newErrorResponse {α : Type} (id : α) (code : ℤ) (message : String) (data : Option String) :
    RPCResponse α := ⟨id, none, some ⟨code, message, data⟩⟩

def RPCError.marshal (e : RPCError) : Json :=
  .object ([("code", .number e.code), ("message", .string e.message)] ++
    (e.data.map fun data ↦ ("data", Json.string data)).toList)

/-- `json.Marshal` of a response. The id is always written. -/
def RPCResponse.marshal {α φ : Type} (json : JsonLibrary α φ) (r : RPCResponse α) : Json :=
  .object ([("jsonrpc", .string "2.0"), ("id", json.marshalAny r.id)] ++
    (r.result.map fun result ↦ ("result", result)).toList ++
    (r.error.map fun e ↦ ("error", e.marshal)).toList)

theorem RPCResponse.member_id_marshal {α φ : Type} (json : JsonLibrary α φ) (r : RPCResponse α) :
    (r.marshal json).member "id" = some (json.marshalAny r.id) := rfl

/-! ### The daemon -/

/-- The daemon: its firewall, whether the client has announced itself, and the lines written. -/
structure Daemon where
  fw : Firewall
  initialized : Bool
  out : List Json

/-- What a call of a tool takes from the keyring, the node and the clock. -/
structure Surroundings where
  services : Services
  evaluatedAt : ℤ
  recordedAt : ℤ

namespace Daemon

variable {α φ : Type} (json : JsonLibrary α φ) (toInt64 : φ → Int64)

def write (r : RPCResponse α) (d : Daemon) : Daemon := { d with out := d.out ++ [r.marshal json] }

def sendResponse (id : α) (result : Json) (d : Daemon) : Daemon :=
  d.write json (newResponse id result)

def sendError (id : α) (code : ℤ) (message : String) (data : Option String) (d : Daemon) : Daemon :=
  d.write json (newErrorResponse id code message data)

/-- `InitializeResult` as the daemon fills it. -/
def initializeResult : Json :=
  .object [("protocolVersion", .string "2024-11-05"),
    ("capabilities", .object [("tools", .object [])]),
    ("serverInfo", .object [("name", .string "ai-to-ai-ledger-mcp"), ("version", .string "0.1.0")])]

def handleInitialize (req : Request α) (d : Daemon) : Daemon :=
  match req.params.map json.unmarshalInitializeParams with
  | some (.error e) => d.sendError json req.id invalidParams "Invalid params" (some e)
  | _ => d.sendResponse json req.id initializeResult -- also when there are no parameters

/-- A tool of the list, with the type and the description of each property. Go writes the members
of a map in the order of their names. -/
def tool (name description : String) (properties : List (String × String × String))
    (required : List String) : Json :=
  .object [("name", .string name), ("description", .string description),
    ("inputSchema", .object ([("type", .string "object"),
      ("properties", .object (properties.map fun (name, type, description) ↦
        (name, .object [("description", .string description), ("type", .string type)])))] ++
      if required.isEmpty then [] else [("required", .array (required.map .string))]))]

/-- The three tools that are listed. -/
def tools : List Json :=
  [tool "wallet_create" "Generate a new ephemeral wallet for this session" [] [],
    tool "wallet_balance" "Query balance for an address"
      [("address", "string", "Base58 encoded address")] ["address"],
    tool "tx_send" "Send a standard P2PKH transaction"
      [("amount", "integer", "Amount in micro-cents"), ("to", "string", "Recipient address")]
      ["to", "amount"]]

def handleToolsList (req : Request α) (d : Daemon) : Daemon :=
  d.sendResponse json req.id (.object [("tools", .array tools)])

/-- `CallToolResult` with one text. -/
def callToolResult (text : String) (isError : Bool) : Json :=
  .object ([("content", .array [.object [("text", .string text), ("type", .string "text")]])] ++
    if isError then [("isError", .bool true)] else [])

/-- `handleToolsCall`, with the parameters still to decode. -/
def handleToolsCall (env : Surroundings) (req : Request α) (d : Daemon) : Daemon :=
  match req.params with
  | none => d.sendError json req.id invalidParams "Invalid params"
      (some "unexpected end of JSON input")
  | some params =>
    match json.unmarshalCallToolParams params with
    | .error e => d.sendError json req.id invalidParams "Invalid params" (some e)
    | .ok (name, args) =>
      let call : ToolCall φ := ⟨name, args, env.services, env.evaluatedAt, env.recordedAt⟩
      match Mcp.handleToolsCall toInt64 call d.fw with
      | (.content text isError, fw) =>
        { d with fw := fw }.sendResponse json req.id (callToolResult text isError)
      | (.methodNotFound message, fw) =>
        { d with fw := fw }.sendError json req.id Mcp.methodNotFound message none

/-- `handleMessage`. -/
def handleMessage (env : Surroundings) (data : Bytes) (d : Daemon) : Daemon :=
  match json.unmarshalRequest data with
  | .error e => d.sendError json json.nil parseError "Parse error" (some e)
  | .ok req =>
    if req.jsonrpc ≠ "2.0" ∨ req.method = "" then
      d.sendError json req.id invalidRequest "Invalid Request" none
    else if d.initialized = false ∧ req.method ≠ "initialize" ∧
        req.method ≠ "notifications/initialized" then
      d.sendError json req.id internalError "Server not initialized" none
    else if req.method = "initialize" then d.handleInitialize json req
    else if req.method = "notifications/initialized" then { d with initialized := true }
    else if req.method = "tools/list" then d.handleToolsList json req
    else if req.method = "tools/call" then d.handleToolsCall json toInt64 env req
    else d.sendError json req.id Mcp.methodNotFound "Method not found" none

/-- `Run` over the lines that are read; blank ones are skipped. -/
def run (isBlank : Bytes → Bool) (lines : List (Surroundings × Bytes)) (d : Daemon) : Daemon :=
  lines.foldl (fun d (env, line) ↦
    if isBlank line then d else d.handleMessage json toInt64 env line) d

/-! ### Which lines are answered -/

/-- Exactly one response is written, with the given id. -/
def Answers (id : α) (d d' : Daemon) : Prop :=
  ∃ r : RPCResponse α, r.id = id ∧ d'.out = d.out ++ [r.marshal json]

variable {json toInt64} {d d' : Daemon} {req : Request α} {data : Bytes}

theorem answers_sendResponse (id : α) (result : Json) :
    Answers json id d (d.sendResponse json id result) :=
  ⟨newResponse id result, rfl, rfl⟩

theorem answers_sendError (id : α) (code : ℤ) (message : String) (data : Option String) :
    Answers json id d (d.sendError json id code message data) :=
  ⟨newErrorResponse id code message data, rfl, rfl⟩

theorem answers_handleInitialize : Answers json req.id d (d.handleInitialize json req) := by
  rw [handleInitialize]
  split
  · exact answers_sendError ..
  · exact answers_sendResponse ..

theorem answers_handleToolsCall (env : Surroundings) :
    Answers json req.id d (d.handleToolsCall json toInt64 env req) := by
  rw [handleToolsCall]
  split
  · exact answers_sendError ..
  · split
    · exact answers_sendError ..
    · next name args _ =>
      -- whatever the tool does to the firewall, the lines written so far are the same
      dsimp only
      split
      · exact ⟨newResponse .., rfl, rfl⟩
      · exact ⟨newErrorResponse .., rfl, rfl⟩

/-- **A method is answered once, unless it is `notifications/initialized`**, which is not
answered. -/
theorem handleMessage_of_method (hreq : json.unmarshalRequest data = .ok req)
    (hversion : req.jsonrpc = "2.0") (hmethod : req.method ≠ "") (env : Surroundings) :
    if req.method = "notifications/initialized" then
      d.handleMessage json toInt64 env data = { d with initialized := true }
    else Answers json req.id d (d.handleMessage json toInt64 env data) := by
  have hvalid : ¬ (req.jsonrpc ≠ "2.0" ∨ req.method = "") := by simp [hversion, hmethod]
  rw [handleMessage, hreq]
  simp only [if_neg hvalid]
  by_cases hsilent : req.method = "notifications/initialized"
  · simp [hsilent]
  · rw [if_neg hsilent, if_neg hsilent]
    split
    · exact answers_sendError ..
    · split
      · exact answers_handleInitialize
      · split
        · exact answers_sendResponse ..
        · split
          · exact answers_handleToolsCall env
          · exact answers_sendError ..

theorem Answers.exists_responses {id : α} (h : Answers json id d d') :
    ∃ responses : List (RPCResponse α), responses.map RPCResponse.id = (some id).toList ∧
      d'.out = d.out ++ responses.map (RPCResponse.marshal json) := by
  obtain ⟨r, hid, hout⟩ := h
  exact ⟨[r], by simp [hid], hout⟩

/-- The id with which a line is answered, if it is. -/
def answerId (json : JsonLibrary α φ) (data : Bytes) : Option α :=
  match json.unmarshalRequest data with
  | .error _ => some json.nil
  | .ok req =>
    if req.jsonrpc = "2.0" ∧ req.method = "notifications/initialized" then none else some req.id

/-- **What a line writes**, in whatever state the daemon is. -/
theorem exists_out_eq_append (toInt64 : φ → Int64) (env : Surroundings) (data : Bytes)
    (d : Daemon) :
    ∃ responses : List (RPCResponse α), responses.map RPCResponse.id = (answerId json data).toList ∧
      (d.handleMessage json toInt64 env data).out =
        d.out ++ responses.map (RPCResponse.marshal json) := by
  rcases hreq : json.unmarshalRequest data with e | req
  · have hid : answerId json data = some json.nil := by simp only [answerId, hreq]
    rw [hid, handleMessage, hreq]
    exact (answers_sendError ..).exists_responses
  by_cases hvalid : req.jsonrpc ≠ "2.0" ∨ req.method = ""
  · have hid : answerId json data = some req.id := by
      simp only [answerId, hreq]
      refine if_neg fun hsilent ↦ ?_
      rcases hvalid with hne | hempty
      · exact hne hsilent.1
      · exact absurd (hempty.symm.trans hsilent.2) (by decide)
    rw [hid, handleMessage, hreq]
    simp only [if_pos hvalid]
    exact (answers_sendError ..).exists_responses
  · have hversion : req.jsonrpc = "2.0" := not_not.1 (not_or.1 hvalid).1
    have hcall : if req.method = "notifications/initialized" then
        d.handleMessage json toInt64 env data = { d with initialized := true }
        else Answers json req.id d (d.handleMessage json toInt64 env data) :=
      handleMessage_of_method hreq hversion (not_or.1 hvalid).2 env
    by_cases hsilent : req.method = "notifications/initialized"
    · rw [if_pos hsilent] at hcall
      refine ⟨[], ?_, ?_⟩
      · simp [answerId, hreq, hversion, hsilent]
      · rw [hcall, List.map_nil, List.append_nil]
    · have hid : answerId json data = some req.id := by simp [answerId, hreq, hsilent]
      rw [if_neg hsilent] at hcall
      rw [hid]
      exact hcall.exists_responses

theorem run_cons (isBlank : Bytes → Bool) (env : Surroundings) (line : Bytes)
    (lines : List (Surroundings × Bytes)) (d : Daemon) :
    d.run json toInt64 isBlank ((env, line) :: lines) =
      (if isBlank line then d else d.handleMessage json toInt64 env line).run json toInt64 isBlank
        lines := rfl

/-- **What a run writes**: for each line that is not blank and is no `notifications/initialized` one
response, in the order of the lines. -/
theorem exists_out_run (isBlank : Bytes → Bool) (lines : List (Surroundings × Bytes)) (d : Daemon) :
    ∃ responses : List (RPCResponse α),
      responses.map RPCResponse.id =
        ((lines.map Prod.snd).filter fun line ↦ !isBlank line).filterMap (answerId json) ∧
      (d.run json toInt64 isBlank lines).out =
        d.out ++ responses.map (RPCResponse.marshal json) := by
  induction lines generalizing d with
  | nil => exact ⟨[], rfl, by simp [run]⟩
  | cons call lines ih =>
    obtain ⟨env, line⟩ := call
    rw [run_cons]
    by_cases hblank : isBlank line = true
    · rw [if_pos hblank]
      obtain ⟨responses, hids, hout⟩ := ih d
      exact ⟨responses, by simpa [hblank] using hids, hout⟩
    · rw [if_neg hblank]
      obtain ⟨first, hfirst, hline⟩ := exists_out_eq_append toInt64 env line d
      obtain ⟨responses, hids, hout⟩ := ih (d.handleMessage json toInt64 env line)
      refine ⟨first ++ responses, ?_, ?_⟩
      · rw [List.map_append, hfirst, hids]
        rcases hid : answerId json line with _ | id
        · simp [hblank, hid]
        · simp [hblank, hid]
      · rw [hout, hline, List.map_append, List.append_assoc]

/-- A line that is answered does nothing else to a daemon whose client has not announced itself. -/
theorem handleMessage_of_not_initialized (h : d.initialized = false)
    (hid : answerId json data ≠ none) (env : Surroundings) :
    (d.handleMessage json toInt64 env data).fw = d.fw ∧
      (d.handleMessage json toInt64 env data).initialized = false := by
  rw [handleMessage]
  rcases hreq : json.unmarshalRequest data with e | req
  · exact ⟨rfl, h⟩
  · have hanswered : ¬ (req.jsonrpc = "2.0" ∧ req.method = "notifications/initialized") := by
      intro hsilent
      simp [answerId, hreq, hsilent] at hid
    simp only
    split
    · exact ⟨rfl, h⟩
    · next hvalid =>
      have hversion : req.jsonrpc = "2.0" := not_not.1 (not_or.1 hvalid).1
      have hmethod : req.method ≠ "notifications/initialized" := fun hm ↦ hanswered ⟨hversion, hm⟩
      split
      · exact ⟨rfl, h⟩
      · next hguard =>
        have hinit : req.method = "initialize" := by
          by_contra hne
          exact hguard ⟨h, hne, hmethod⟩
        rw [if_pos hinit, handleInitialize]
        split
        · exact ⟨rfl, h⟩
        · exact ⟨rfl, h⟩

/-- **Nothing is spent before the client announces itself.** -/
theorem fw_run (isBlank : Bytes → Bool) {lines : List (Surroundings × Bytes)} {d : Daemon}
    (h : d.initialized = false) (hlines : ∀ call ∈ lines, answerId json call.2 ≠ none) :
    (d.run json toInt64 isBlank lines).fw = d.fw := by
  induction lines generalizing d with
  | nil => rfl
  | cons call lines ih =>
    obtain ⟨env, line⟩ := call
    obtain ⟨hline, hrest⟩ := List.forall_mem_cons.1 hlines
    rw [run_cons]
    split
    · exact ih h hrest
    · obtain ⟨hfw, hinit⟩ := handleMessage_of_not_initialized h hline env
      exact (ih hinit hrest).trans hfw

end Daemon

/-! ### The id of a message -/

namespace JsonLibrary

variable {α φ : Type} (json : JsonLibrary α φ)

/-- The id of a message: the last member that is for the field. -/
def wireId : List (String × Json) → Option Json
  | [] => none
  | member :: members =>
    match wireId members with
    | some id => some id
    | none => if json.requestField member.1 = some .id then some member.2 else none

/-- What is written under the name of the field is an id. -/
theorem exists_wireId_eq {members : List (String × Json)} {v : Json} (h : ("id", v) ∈ members) :
    ∃ id, json.wireId members = some id := by
  induction members with
  | nil => cases h
  | cons member members ih =>
    rw [wireId]
    rcases hid : json.wireId members with _ | id
    · rcases List.mem_cons.1 h with rfl | hmem
      · exact ⟨v, if_pos (json.requestField_name .id)⟩
      · obtain ⟨id, hsome⟩ := ih hmem
        rw [hid] at hsome
        cases hsome
    · exact ⟨id, rfl⟩

/-- Decoding the id and encoding it again gives the id. -/
def KeepsId (id : Json) : Prop := (json.unmarshalAny id).map json.marshalAny = .ok id

theorem keepsId_null : json.KeepsId .null := by
  rw [KeepsId, json.unmarshalAny_null, Except.map, json.marshalAny_nil]

theorem keepsId_string (s : String) : json.KeepsId (.string s) := json.marshalAny_string s

variable {json}

theorem keepsId_iff {id : Json} {a : α} (h : json.unmarshalAny id = .ok a) :
    json.KeepsId id ↔ json.marshalAny a = id := by
  rw [KeepsId, h, Except.map, Except.ok.injEq]

theorem exists_of_map_eq_ok {ε β γ : Type} {x : Except ε β} {f : β → γ} {c : γ}
    (h : x.map f = .ok c) : ∃ b, x = .ok b ∧ f b = c := by
  rcases x with e | b
  · cases h
  · exact ⟨b, rfl, Except.ok.inj h⟩

/-- A member leaves the id alone, unless it is for that field. -/
theorem id_of_unmarshalMember {req req' : Request α} {member : String × Json}
    (h : json.unmarshalMember req member = .ok req') :
    if json.requestField member.1 = some .id then json.unmarshalAny member.2 = .ok req'.id
    else req'.id = req.id := by
  rw [unmarshalMember] at h
  rcases hfield : json.requestField member.1 with _ | field
  · simp only [hfield] at h
    obtain rfl := Except.ok.inj h
    rfl
  · cases field with
    | jsonrpc =>
      simp only [hfield] at h
      obtain ⟨s, -, rfl⟩ := exists_of_map_eq_ok h
      rfl
    | id =>
      simp only [hfield] at h
      obtain ⟨a, ha, rfl⟩ := exists_of_map_eq_ok h
      exact ha
    | method =>
      simp only [hfield] at h
      obtain ⟨s, -, rfl⟩ := exists_of_map_eq_ok h
      rfl
    | params =>
      simp only [hfield] at h
      obtain rfl := Except.ok.inj h
      rfl

/-- **The id of a request is the id of the message**, or what it was if the message has none. -/
theorem id_of_unmarshalMembers {members : List (String × Json)} {req req' : Request α}
    (h : json.unmarshalMembers req members = .ok req') :
    match json.wireId members with
    | some id => json.unmarshalAny id = .ok req'.id
    | none => req'.id = req.id := by
  induction members generalizing req with
  | nil =>
    obtain rfl := Except.ok.inj h
    rfl
  | cons member members ih =>
    rw [unmarshalMembers] at h
    rcases hmember : json.unmarshalMember req member with e | req₁
    · simp [hmember] at h
    · simp only [hmember] at h
      have hrest := ih h
      have hfirst := id_of_unmarshalMember hmember
      rw [wireId]
      rcases hid : json.wireId members with _ | id
      · rw [hid] at hrest
        simp only at hrest ⊢
        split
        · next id hsome =>
          split at hsome
          · next hfield =>
            obtain rfl := Option.some.inj hsome
            rw [if_pos hfield, ← hrest] at hfirst
            exact hfirst
          · cases hsome
        · next hnone =>
          split at hnone
          · cases hnone
          · next hfield =>
            rw [if_neg hfield] at hfirst
            exact hrest.trans hfirst
      · rw [hid] at hrest
        exact hrest

end JsonLibrary

namespace Daemon

variable {α φ : Type} {json : JsonLibrary α φ} {toInt64 : φ → Int64} {d d' : Daemon}
  {req : Request α} {data : Bytes} {members : List (String × Json)}

/-- A message with an id is answered once, with this id; a message without is not answered. -/
def AnsweredById : Option Json → Daemon → Daemon → Prop
  | some id, d, d' => ∃ response : Json, response.member "id" = some id ∧
      d'.out = d.out ++ [response]
  | none, d, d' => d'.out = d.out

theorem Answers.answeredById_some_iff {id : α} (h : Answers json id d d') (v : Json) :
    AnsweredById (some v) d d' ↔ json.marshalAny id = v := by
  obtain ⟨r, rfl, hout⟩ := h
  constructor
  · intro hanswered
    obtain ⟨response, hid, hout'⟩ := hanswered
    have heq : r.marshal json = response := by
      simpa using List.append_cancel_left (hout.symm.trans hout')
    rw [← heq, RPCResponse.member_id_marshal] at hid
    exact Option.some.inj hid
  · rintro rfl
    exact ⟨_, RPCResponse.member_id_marshal json r, hout⟩

theorem Answers.not_unanswered {id : α} (h : Answers json id d d') : d'.out ≠ d.out := by
  obtain ⟨r, -, hout⟩ := h
  rw [hout]
  simp

/-- **One response for a message with an id and none for a message without.** For a JSON-RPC message
with a method this is so exactly if the message has no id and is `notifications/initialized`, or if
it has an id that survives decoding and is of another method. -/
theorem answeredById_iff (hparse : json.parse data = .ok (.object members))
    (hreq : json.unmarshalRequest data = .ok req) (hversion : req.jsonrpc = "2.0")
    (hmethod : req.method ≠ "") (env : Surroundings) (d : Daemon) :
    AnsweredById (json.wireId members) d (d.handleMessage json toInt64 env data) ↔
      match json.wireId members with
      | some id => req.method ≠ "notifications/initialized" ∧ json.KeepsId id
      | none => req.method = "notifications/initialized" := by
  have hid : json.unmarshalMembers ⟨"", json.nil, "", none⟩ members = .ok req := by
    rw [JsonLibrary.unmarshalRequest, hparse] at hreq
    exact hreq
  have hid := JsonLibrary.id_of_unmarshalMembers hid
  have hcall : if req.method = "notifications/initialized" then
      d.handleMessage json toInt64 env data = { d with initialized := true }
      else Answers json req.id d (d.handleMessage json toInt64 env data) :=
    handleMessage_of_method hreq hversion hmethod env
  by_cases hsilent : req.method = "notifications/initialized"
  · rw [if_pos hsilent] at hcall
    rw [hcall]
    rcases json.wireId members with _ | v
    · exact iff_of_true rfl hsilent
    · refine iff_of_false (fun hanswered ↦ ?_) fun h ↦ h.1 hsilent
      obtain ⟨response, -, hout⟩ := hanswered
      simp at hout
  · rw [if_neg hsilent] at hcall
    rcases hwire : json.wireId members with _ | v
    · exact iff_of_false hcall.not_unanswered hsilent
    · rw [hwire] at hid
      show _ ↔ req.method ≠ "notifications/initialized" ∧ json.KeepsId v
      rw [hcall.answeredById_some_iff, JsonLibrary.keepsId_iff hid, and_iff_right hsilent]

/-! ### Two lines -/

/-- A request for the tools. -/
def sampleRequest : Bytes :=
  ascii "\x7b\"jsonrpc\":\"2.0\",\"id\":1,\"method\":\"tools/list\"\x7d"

/-- The same without an id. -/
def sampleNotification : Bytes :=
  ascii "\x7b\"jsonrpc\":\"2.0\",\"method\":\"tools/list\"\x7d"

def sampleMembers : List (String × Json) :=
  [("jsonrpc", .string "2.0"), ("method", .string "tools/list")]

/-- A library that reads the two lines. -/
def sampleLibrary : JsonLibrary Json Int64 where
  parse data :=
    if data = sampleRequest then .ok (.object (("id", .number 1) :: sampleMembers))
    else if data = sampleNotification then .ok (.object sampleMembers)
    else .error "invalid character"
  requestField name :=
    [("jsonrpc", .jsonrpc), ("id", .id), ("method", .method), ("params", .params)].lookup name
  requestField_name field := by cases field <;> rfl
  typeError _ _ := "wrong type"
  nil := .null
  unmarshalAny := .ok
  marshalAny v := v
  unmarshalAny_null := rfl
  marshalAny_nil := rfl
  marshalAny_string _ := rfl
  unmarshalInitializeParams _ := .ok ()
  unmarshalCallToolParams _ := .error "wrong type"

theorem parse_sampleRequest :
    sampleLibrary.parse sampleRequest = .ok (.object (("id", .number 1) :: sampleMembers)) := by
  simp [sampleLibrary]

theorem parse_sampleNotification :
    sampleLibrary.parse sampleNotification = .ok (.object sampleMembers) := by
  have hne : sampleNotification ≠ sampleRequest := by decide +kernel
  simp [sampleLibrary, hne]

theorem unmarshal_sampleRequest :
    sampleLibrary.unmarshalRequest sampleRequest = .ok ⟨"2.0", .number 1, "tools/list", none⟩ := by
  rw [JsonLibrary.unmarshalRequest, parse_sampleRequest]
  rfl

theorem unmarshal_sampleNotification :
    sampleLibrary.unmarshalRequest sampleNotification = .ok ⟨"2.0", .null, "tools/list", none⟩ := by
  rw [JsonLibrary.unmarshalRequest, parse_sampleNotification]
  rfl

/-- A daemon that has just started. -/
def sampleDaemon : Daemon := ⟨newFirewall (Policy.sampleTerms 10), false, []⟩

def sampleSurroundings : Surroundings := ⟨⟨.error "no entropy", fun _ ↦ .ok 0, .ok 0⟩, 0, 0⟩

theorem answeredById_iff_sample :
    AnsweredById (sampleLibrary.wireId (("id", .number 1) :: sampleMembers)) sampleDaemon
      (sampleDaemon.handleMessage sampleLibrary id sampleSurroundings sampleRequest) :=
  (answeredById_iff parse_sampleRequest unmarshal_sampleRequest rfl (by decide) sampleSurroundings
    sampleDaemon).2 ⟨by decide, rfl⟩

/-- **A message without an id is answered**: the client gets a response it has not asked for, with
the id null. -/
theorem handleMessage_answers_notification :
    ¬ ∀ {α φ : Type} (json : JsonLibrary α φ) (toInt64 : φ → Int64) (env : Surroundings)
      (data : Bytes) (members : List (String × Json)) (req : Request α) (d : Daemon),
      json.parse data = .ok (.object members) → json.unmarshalRequest data = .ok req →
      req.jsonrpc = "2.0" → req.method ≠ "" →
      AnsweredById (json.wireId members) d (d.handleMessage json toInt64 env data) := by
  intro h
  have hsilent : AnsweredById (sampleLibrary.wireId sampleMembers) sampleDaemon
      (sampleDaemon.handleMessage sampleLibrary id sampleSurroundings sampleNotification) :=
    h _ _ _ _ _ _ _ parse_sampleNotification unmarshal_sampleNotification rfl (by decide)
  rw [handleMessage, unmarshal_sampleNotification] at hsilent
  exact absurd (congrArg List.length hsilent) (by decide)

end Daemon

end GoBlockchain.Mcp
