import Np2ptp.Lib.Text

/-!
# Requests and events

`daemon/proto.rs`, and what `daemon/mod.rs` makes of a line before it is a request. A line is read
by `serde_json`, as a request and as any value; an event is an object that `serde_json` writes on
one line. Whatever becomes of a line, what ends it carries the `id` that the line carries
(`lineId`), and an object of results never hides the keys of its event (`terminalOf_eventResult`).
-/

namespace Np2ptp

open Lib

/-! ## Values -/

/-- A number: one that fits `u64`, or another. -/
inductive JsonNumber where
  | unsigned (n : UInt64)
  | other (text : String)

/-- `serde_json::Value`. -/
inductive Json where
  | null
  | bool (b : Bool)
  | number (n : JsonNumber)
  | string (s : String)
  | array (items : List Json)
  | object (entries : List (String × Json))

namespace Json

/-- `Value::get` with a key. -/
def get (key : String) : Json → Option Json
  | .object entries => entries.lookup key
  | _ => none

/-- `Value::as_u64`. -/
def asU64 : Json → Option UInt64
  | .number (.unsigned n) => some n
  | _ => none

/-- `Value::as_str`. -/
def asStr : Json → Option String
  | .string s => some s
  | _ => none

/-- The entries of `Map::insert`: a key that is there gets the new value. -/
def insert (entries : List (String × Json)) (key : String) (value : Json) :
    List (String × Json) :=
  (key, value) :: entries.filter fun e => e.1 ≠ key

def u64 (n : UInt64) : Json := .number (.unsigned n)

def strings (ss : List String) : Json := .array (ss.map .string)

@[simp] theorem lookup_insert_self (entries : List (String × Json)) (key : String) (value : Json) :
    (insert entries key value).lookup key = some value := List.lookup_cons_self

theorem lookup_filter_of_ne {key other : String} (h : other ≠ key)
    (entries : List (String × Json)) :
    (entries.filter fun e => e.1 ≠ key).lookup other = entries.lookup other := by
  induction entries with
  | nil => rfl
  | cons e entries ih =>
    obtain ⟨k, v⟩ := e
    by_cases hk : k = key
    · rw [List.filter_cons_of_neg (by simpa using hk), ih, List.lookup_cons]
      have hne : (other == k) = false := beq_eq_false_iff_ne.mpr (hk ▸ h)
      rw [hne]
    · rw [List.filter_cons_of_pos (by simpa using hk), List.lookup_cons, List.lookup_cons, ih]

@[simp] theorem lookup_insert_of_ne {key other : String} (h : other ≠ key)
    (entries : List (String × Json)) (value : Json) :
    (insert entries key value).lookup other = entries.lookup other := by
  have hne : (other == key) = false := beq_eq_false_iff_ne.mpr h
  rw [insert, List.lookup_cons, hne, lookup_filter_of_ne h]

end Json

namespace Proto

/-! ## Requests -/

/-- `proto::Op`. -/
inductive Op where
  | fetch (uri out : String)
  | convert (torrent data path : Option String)
  | torrent (input : String) (out : Option String)
  | provide (nptp : String)
  | unprovide (root : String)
  | status
  | shutdown
  deriving DecidableEq

structure Request where
  id : UInt64
  op : Op
  deriving DecidableEq

/-- What is used of `serde_json`: the two readings of a line, and the writing of a value. -/
class SerdeJson where
  /-- `from_str::<Value>`. -/
  value : Bytes → Option Json
  /-- `from_str::<Request>`, with the text of the error. -/
  request : Bytes → Except String Request
  /-- `Value::to_string`. -/
  render : Json → Bytes

/-- What is documented of it: what is read as a request is a value that has the request's `id`, and
the compact form of a value is on one line. -/
structure SerdeJson.Lawful [SerdeJson] : Prop where
  request_id : ∀ line req, SerdeJson.request line = .ok req →
    ∃ v, SerdeJson.value line = some v ∧ v.get "id" = some (.u64 req.id)
  render_line : ∀ v, LF ∉ SerdeJson.render v

section

variable [SerdeJson]

/-- `parse_request`. -/
def parseRequest (line : Bytes) : Except String Request :=
  match SerdeJson.request line with
  | .error e => .error e
  | .ok req =>
    match req.op with
    | .convert torrent data path =>
      match torrent.isSome, data.isSome, path.isSome with
      | true, true, false => .ok req
      | false, false, true => .ok req
      | _, _, _ =>
        .error "convert requires exactly one of: torrent+data together, or path alone"
    | _ => .ok req

/-- The number under `id`. -/
def idOf (v : Json) : UInt64 := ((v.get "id").bind Json.asU64).getD 0

/-- `raw_id`. -/
def rawId (line : Bytes) : UInt64 := ((SerdeJson.value line).map idOf).getD 0

/-- `dial_fallback_value`. -/
def dialFallbackValue (line : Bytes) : Option Json :=
  (SerdeJson.value line).bind fun v =>
    if (v.get "cmd").bind Json.asStr = some "dial" then some v else none

/-- A request that is accepted is what `serde_json` made of the line. -/
theorem request_of_parseRequest {line : Bytes} {req : Request} (h : parseRequest line = .ok req) :
    SerdeJson.request line = .ok req := by
  unfold parseRequest at h
  split at h
  · cases h
  · next parsed hparsed =>
    rw [hparsed]
    split at h
    · split at h
      · exact h
      · exact h
      · cases h
    · exact h

/-- An accepted request has the number under which its line would have been refused. -/
theorem id_of_parseRequest (h : SerdeJson.Lawful) {line : Bytes} {req : Request}
    (hline : parseRequest line = .ok req) : req.id = rawId line := by
  obtain ⟨v, hv, hid⟩ := h.request_id line req (request_of_parseRequest hline)
  rw [rawId, hv, Option.map_some, Option.getD_some, idOf, hid]
  rfl

/-- So has a request to dial. -/
theorem id_of_dialFallbackValue {line : Bytes} {v : Json} (h : dialFallbackValue line = some v) :
    idOf v = rawId line := by
  obtain ⟨v', hv, hdial⟩ := Option.bind_eq_some_iff.mp h
  split at hdial
  · cases hdial
    rw [rawId, hv]
    rfl
  · cases hdial

end

/-! ## Events -/

/-- `event_progress`. -/
def eventProgress (id : UInt64) (op : String) (done total : UInt64) : Json :=
  .object [("id", .u64 id), ("event", .string "progress"), ("op", .string op), ("done", .u64 done),
    ("total", .u64 total)]

/-- `event_error`. -/
def eventError (id : UInt64) (message : String) : Json :=
  .object [("id", .u64 id), ("event", .string "error"), ("ok", .bool false),
    ("message", .string message)]

/-- `event_result`: the fields are put over those that every result has. -/
def eventResult (id : UInt64) (fields : List (String × Json)) : Json :=
  .object (fields.foldl (fun obj e => Json.insert obj e.1 e.2)
    [("id", .u64 id), ("event", .string "result"), ("ok", .bool true)])

/-- `event_warn`. -/
def eventWarn (message : String) : Json :=
  .object [("event", .string "warn"), ("message", .string message)]

/-- `ready_line`: `event_ready` with what is added to it. -/
def readyLine (version peer : String) (addrs : List String) : Json :=
  .object (Json.insert (Json.insert [("event", .string "ready"), ("version", .string version)]
    "peer_id" (.string peer)) "addrs" (Json.strings addrs))

/-- The fields that an operation of the daemon reports with its result. -/
inductive Fields where
  | fetch (root path : String) (bytesTotal : UInt64)
  | convertTorrent (root : String) (converted : Bool) (infohash : String)
      (filesTotal chunksTotal bytesTotal : UInt64)
  | convertPath (root : String) (chunksTotal chunksNew bytesTotal : UInt64)
  | torrent (root : String) (converted : Bool) (filesTotal chunksTotal bytesTotal : UInt64)
  | provide (root : String) (filesTotal chunksTotal : UInt64)
  | unprovide (root : String)
  | status (peers : UInt64) (peerId : String) (addrs provided : List String)
      (servedToUs weServed creditedByReceipts : UInt64)
  | shutdown
  | dial (addr : String)

/-- The entries of the object. -/
def Fields.entries : Fields → List (String × Json)
  | .fetch root path bytesTotal =>
    [("root", .string root), ("path", .string path), ("bytes_total", .u64 bytesTotal)]
  | .convertTorrent root converted infohash filesTotal chunksTotal bytesTotal =>
    [("root", .string root), ("converted", .bool converted), ("infohash", .string infohash),
      ("files_total", .u64 filesTotal), ("chunks_total", .u64 chunksTotal),
      ("bytes_total", .u64 bytesTotal)]
  | .convertPath root chunksTotal chunksNew bytesTotal =>
    [("root", .string root), ("chunks_total", .u64 chunksTotal), ("chunks_new", .u64 chunksNew),
      ("bytes_total", .u64 bytesTotal)]
  | .torrent root converted filesTotal chunksTotal bytesTotal =>
    [("root", .string root), ("converted", .bool converted), ("files_total", .u64 filesTotal),
      ("chunks_total", .u64 chunksTotal), ("bytes_total", .u64 bytesTotal)]
  | .provide root filesTotal chunksTotal =>
    [("root", .string root), ("files_total", .u64 filesTotal), ("chunks_total", .u64 chunksTotal)]
  | .unprovide root => [("root", .string root)]
  | .status peers peerId addrs provided servedToUs weServed creditedByReceipts =>
    [("peers", .u64 peers), ("peer_id", .string peerId), ("addrs", Json.strings addrs),
      ("provided", Json.strings provided),
      ("ledger", .object [("served_to_us", .u64 servedToUs), ("we_served", .u64 weServed),
        ("credited_by_receipts", .u64 creditedByReceipts)])]
  | .shutdown => []
  | .dial addr => [("addr", .string addr)]

/-- The number of the request that an event ends: it is a result or an error. -/
def terminalOf (v : Json) : Option UInt64 :=
  match (v.get "event").bind Json.asStr with
  | some "result" => (v.get "id").bind Json.asU64
  | some "error" => (v.get "id").bind Json.asU64
  | _ => none

@[simp] theorem terminalOf_eventProgress (id : UInt64) (op : String) (done total : UInt64) :
    terminalOf (eventProgress id op done total) = none := rfl

@[simp] theorem terminalOf_eventWarn (message : String) :
    terminalOf (eventWarn message) = none := rfl

@[simp] theorem terminalOf_readyLine (version peer : String) (addrs : List String) :
    terminalOf (readyLine version peer addrs) = none := rfl

@[simp] theorem terminalOf_eventError (id : UInt64) (message : String) :
    terminalOf (eventError id message) = some id := rfl

/-- Entries that are put over others leave the keys alone that are not theirs. -/
theorem lookup_foldl_insert {key : String} {fields : List (String × Json)}
    (h : ∀ e ∈ fields, e.1 ≠ key) (obj : List (String × Json)) :
    (fields.foldl (fun obj e => Json.insert obj e.1 e.2) obj).lookup key = obj.lookup key := by
  induction fields generalizing obj with
  | nil => rfl
  | cons e fields ih =>
    rw [List.foldl_cons, ih fun e' he' => h e' (List.mem_cons_of_mem _ he'),
      Json.lookup_insert_of_ne (h e List.mem_cons_self).symm]

/-- No operation reports a field under a key that every result has. -/
theorem Fields.keys (fields : Fields) :
    ∀ e ∈ fields.entries, e.1 ≠ "id" ∧ e.1 ≠ "event" ∧ e.1 ≠ "ok" := by
  cases fields <;> simp [Fields.entries]

/-- A result is a terminal event of its request, whatever fields the operation reports. -/
@[simp] theorem terminalOf_eventResult (id : UInt64) (fields : Fields) :
    terminalOf (eventResult id fields.entries) = some id := by
  have hevent : (eventResult id fields.entries).get "event" = some (.string "result") :=
    lookup_foldl_insert (fun e he => (fields.keys e he).2.1) _
  have hid : (eventResult id fields.entries).get "id" = some (.u64 id) :=
    lookup_foldl_insert (fun e he => (fields.keys e he).1) _
  simp only [terminalOf, hevent, hid, Option.bind_some]
  rfl

end Proto

end Np2ptp
