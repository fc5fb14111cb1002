import CommonCpp.Http.Multipart

/-!
# `common::http_client`

One request is five asynchronous operations, each started by the handler of the
one before, over members the object keeps between calls. `Client.run` is
`io_context::run` as a loop over the pending handlers; the outcome of every
operation is the environment's (`Answers`). A call leaves no handler pending and
every other member is replaced before it is read, so what a call sends and
reports depends on the constructor's arguments, the call and the answers alone
(`perform_report`), with one exception: the text for a failed write prints a
pointer. `as_claimed_iff` is the exact condition.

Beast is a parameter: what `set` makes of a field's value, and what `async_read`
leaves in the message and the buffer it is given.
-/

namespace CommonCpp.Http

open CommonCpp.Lib CommonCpp.Text

/-! ## Messages -/

inductive Verb where
  | unknown
  | get
  | post
  | put
deriving DecidableEq

/-- The header fields the client sets. -/
inductive Field where
  | host
  | user_agent
  | content_type
  | accept
  | content_length
  | authorization
deriving DecidableEq

/-- `request<string_body>` -/
structure Request where
  verb : Verb
  target : Bytes
  version : Nat
  fields : List (Field × Bytes)
  body : Bytes
deriving DecidableEq

/-- A default-constructed request. -/
def Request.empty : Request := ⟨.unknown, [], 11, [], []⟩

/-- `response<dynamic_body>` -/
structure Response where
  fields : List (Bytes × Bytes)
  body : Bytes
deriving DecidableEq

def Response.empty : Response := ⟨[], []⟩

/-- What the client uses of Beast. -/
structure Beast where
  /-- The value `fields::set` stores; `none` if it throws. -/
  stored : Bytes → Option Bytes
  /-- The message and the buffer after a successful `async_read`, from those it is
  called with and the response that arrives. -/
  read : Bytes → Response → Response → Response × Bytes
  /-- What an `async_read` that fails leaves of them. -/
  readSome : Bytes → Response → Response × Bytes
  /-- With nothing left over from before, the message read is the one that arrives. -/
  read_fresh : ∀ reply, (read [] .empty reply).1 = reply

/-- `req.set(field, value)`: in place of every field of that name. -/
def Request.set (beast : Beast) (req : Request) (field : Field) (value : Bytes) : Option Request :=
  (beast.stored value).map fun v =>
    { req with fields := req.fields.filter (fun x => x.1 ≠ field) ++ [(field, v)] }

/-! ## The object -/

/-- The five asynchronous operations of a request. -/
inductive Stage where
  | resolve
  | connect
  | handshake
  | write
  | read
deriving DecidableEq

/-- `net::io_context` -/
structure IoContext where
  stopped : Bool
  /-- Operations whose handler has not run. -/
  pending : List Stage

/-- `http_client`; the last field is not the program's but the network's. -/
structure Client where
  respText : Bytes
  error : Bytes
  host : Bytes
  port : Bytes
  target : Bytes
  token : Bytes
  /-- Whether `stream` holds a stream. -/
  stream : Bool
  req : Request
  buffer : Bytes
  res : Response
  ioc : IoContext
  /-- The requests handed to `async_write`. -/
  sent : List Request

/-- `http_client(host, port, target, token)` -/
def Client.named (host port target token : Bytes) : Client where
  respText := []
  error := []
  host := host
  port := port
  target := target
  token := token
  stream := false
  req := .empty
  buffer := []
  res := .empty
  ioc := ⟨false, []⟩
  sent := []

/-- `http_client(host, int port)` -/
def Client.numbered (host : Bytes) (port : Int32) : Option Client :=
  (stringFormat (ascii "%d") [.int port]).map fun port => .named host port [] []

/-- A new client with the same host, port, target and token. -/
def Client.fresh (s : Client) : Client := .named s.host s.port s.target s.token

/-- How a piece of the code ends. -/
inductive Ended where
  | returned (s : Client)
  /-- An exception leaves it. -/
  | threw (s : Client)
  /-- It uses the stream where there is none. -/
  | crashed
  /-- Handlers go on. -/
  | running

def Ended.andThen : Ended → (Client → Ended) → Ended
  | .returned s, next => next s
  | e, _ => e

/-- What one call meets. -/
structure Answers where
  /-- The message of an operation's error; `none` if it succeeds. -/
  outcome : Stage → Option CString
  /-- The response that arrives. -/
  reply : Response
  /-- Where the text of the error message lies while it is formatted. -/
  address : UInt64

/-! ## The handlers -/

/-- Start an operation. -/
def Client.start (s : Client) (stage : Stage) : Client :=
  { s with ioc := { s.ioc with pending := s.ioc.pending ++ [stage] } }

/-- `this->error = common::string_format(format, arg)` -/
def Client.failWith (s : Client) (format : Bytes) (arg : Arg) : Ended :=
  match stringFormat format [arg] with
  | some text => .returned { s with error := text }
  | none => .threw s

/-- An operation on `*stream.get()`. -/
def Client.startOnStream (s : Client) (stage : Stage) : Ended :=
  if s.stream then .returned (s.start stage) else .crashed

/-- `http_client::handshake` -/
def Client.handshake (s : Client) : Ended := s.startOnStream .handshake

/-- `http_client::send_request` -/
def Client.send_request (s : Client) : Ended :=
  ({ s with sent := s.sent ++ [s.req] }).startOnStream .write

/-- `http_client::receive_response` -/
def Client.receive_response (s : Client) : Ended :=
  ({ s with buffer := [], res := .empty }).startOnStream .read

/-- The handler of `async_resolve`. -/
def Client.resolved (s : Client) : Option CString → Ended
  | some message => s.failWith (ascii "resolve host failed:%s") (.str message)
  | none => ({ s with stream := true }).startOnStream .connect

/-- The handler of `async_connect`. -/
def Client.connected (s : Client) : Option CString → Ended
  | none => s.handshake
  | some message => s.failWith (ascii "async connect failed with error:%s") (.str message)

/-- The handler of `async_handshake`. -/
def Client.handshaken (s : Client) : Option CString → Ended
  | none => s.send_request
  | some message => s.failWith (ascii "async handshake failed with error:%s") (.str message)

/-- The handler of `async_write`. `%d` prints the low half of the pointer to the message. -/
def Client.written (s : Client) (address : UInt64) : Option CString → Ended
  | none => s.receive_response
  | some _ =>
    s.failWith (ascii "async write failed with error:%d") (.int address.toUInt32.toInt32)

/-- The handler of `async_read`, which has written to `res` and `buffer` before. -/
def Client.received (beast : Beast) (s : Client) (reply : Response) : Option CString → Ended
  | none =>
    let (res, buffer) := beast.read s.buffer s.res reply
    .returned { s with buffer := buffer, res := res, respText := res.body }
  | some message =>
    let (res, buffer) := beast.readSome s.buffer s.res
    ({ s with buffer := buffer, res := res }).failWith (ascii "async read failed with error:%s")
      (.str message)

/-- The handler of an operation, called with its outcome. -/
def Client.handle (beast : Beast) (answers : Answers) (s : Client) (stage : Stage) : Ended :=
  match stage with
  | .resolve => s.resolved (answers.outcome .resolve)
  | .connect => s.connected (answers.outcome .connect)
  | .handshake => s.handshaken (answers.outcome .handshake)
  | .write => s.written answers.address (answers.outcome .write)
  | .read => s.received beast answers.reply (answers.outcome .read)

/-- `ioc.run()` for at most `fuel` rounds. A stopped context runs nothing. -/
def Client.run (beast : Beast) (answers : Answers) : Nat → Client → Ended
  | 0, _ => .running
  | fuel + 1, s =>
    if s.ioc.stopped then .returned s
    else
      match s.ioc.pending with
      | [] => .returned { s with ioc := { s.ioc with stopped := true } }
      | stage :: pending =>
        (({ s with ioc := { s.ioc with pending := pending } }).handle beast answers stage).andThen
          (Client.run beast answers fuel)

/-- `http_client::connect`, with a round for each handler and one that finds none. -/
def Client.connect (beast : Beast) (answers : Answers) (s : Client) : Ended :=
  let s := { s with error := [], respText := [] }
  let s := s.start .resolve
  let s := { s with ioc := { s.ioc with stopped := false } }
  (s.run beast answers 6).andThen fun s => .returned { s with stream := false }

/-! ## The calls -/

/-- What a call puts into `req`: the fields in the order they are set, `none` where
their text cannot be built, and then the body. -/
structure Draft where
  verb : Verb
  target : Bytes
  fields : List (Field × Option Bytes)
  body : Bytes

/-- `common::string_format("Bearer %s", token.c_str())` -/
def bearer (token : Bytes) : Option Bytes := stringFormat (ascii "Bearer %s") [.str (.ofBytes token)]

/-- `common::string_format("%d", size)`: `%d` prints the low half of a `size_t`. -/
def sizeText (size : Nat) : Option Bytes := stringFormat (ascii "%d") [.int (UInt32.ofNat size).toInt32]

/-- `USER_AGENT` -/
def userAgent : Bytes := ascii "BY_ALLEN"

/-- `GET()` -/
def Client.GET (s : Client) : Draft where
  verb := .get
  target := s.target
  fields :=
    [(.host, some s.host),
     (.user_agent, some userAgent),
     (.content_type, some (ascii "text/html; charset=utf-8")),
     (.accept, some (ascii "application/json")),
     (.authorization, bearer s.token)]
  body := []

/-- What `GET(target, parameters, token)` and `PUT` have in common. -/
def Client.withParameters (s : Client) (verb : Verb) (target parameters token : Bytes) : Draft where
  verb := verb
  target := target ++ ascii "?" ++ parameters
  fields :=
    [(.host, some s.host),
     (.user_agent, some userAgent),
     (.content_type, some (ascii "application/x-www-form-urlencoded")),
     (.accept, some (ascii "application/json")),
     (.authorization, bearer token)]
  body := []

/-- `GET(target, parameters, token)` -/
def Client.GETParameters (s : Client) (target parameters token : Bytes) : Draft :=
  s.withParameters .get target parameters token

/-- `PUT(target, parameters, token)` -/
def Client.PUT (s : Client) (target parameters token : Bytes) : Draft :=
  s.withParameters .put target parameters token

/-- `POST(std::vector<http::data_block> data)` -/
def Client.POSTBlocks (s : Client) (data : List DataBlock) : Option Draft :=
  (multipart data).map fun multipart =>
    { verb := .post
      target := s.target
      fields :=
        [(.host, some s.host),
         (.user_agent, some userAgent),
         (.content_type, stringFormat (ascii "multipart/form-data;boundary=\"%s\"") [.str boundary]),
         (.accept, some (ascii "application/json")),
         (.content_length, sizeText multipart.length),
         (.authorization, bearer s.token)]
      body := multipart }

/-- `POST(target, parameters, token)` -/
def Client.POST (s : Client) (target parameters token : Bytes) : Draft where
  verb := .post
  target := target
  fields :=
    [(.host, some s.host),
     (.user_agent, some userAgent),
     (.content_type, some (ascii "application/x-www-form-urlencoded")),
     (.accept, some (ascii "application/json")),
     (.content_length, sizeText parameters.length),
     (.authorization, bearer token)]
  body := parameters

inductive Method where
  | GET
  | GETParameters (target parameters token : Bytes)
  | PUT (target parameters token : Bytes)
  | POSTBlocks (data : List DataBlock)
  | POST (target parameters token : Bytes)

def Method.draft (s : Client) : Method → Option Draft
  | .GET => some s.GET
  | .GETParameters target parameters token => some (s.GETParameters target parameters token)
  | .PUT target parameters token => some (s.PUT target parameters token)
  | .POSTBlocks data => s.POSTBlocks data
  | .POST target parameters token => some (s.POST target parameters token)

/-- The calls of `req.set`, one after the other. -/
def Client.setFields (beast : Beast) (s : Client) : List (Field × Option Bytes) → Ended
  | [] => .returned s
  | (field, text) :: rest =>
    match text.bind fun value => s.req.set beast field value with
    | some req => ({ s with req := req }).setFields beast rest
    | none => .threw s

/-- A call. -/
def Client.perform (beast : Beast) (s : Client) (call : Method) (answers : Answers) : Ended :=
  match call.draft s with
  | none => .threw s
  | some d =>
    (({ s with req := ⟨d.verb, d.target, 11, [], []⟩ }).setFields beast d.fields).andThen fun s =>
      ({ s with req := { s.req with body := d.body } }).connect beast answers

/-- The client after a sequence of calls, whose exceptions the caller catches. -/
def Client.after (beast : Beast) (s : Client) : List (Method × Answers) → Option Client
  | [] => some s
  | (call, answers) :: rest =>
    match s.perform beast call answers with
    | .returned s' | .threw s' => s'.after beast rest
    | .crashed | .running => none

/-! ## What a call should do -/

def Answers.AllSucceed (answers : Answers) : Prop := ∀ stage, answers.outcome stage = none

/-- The call returns with `error` false exactly if all five operations succeeded, and
then with the body of the response; it sends and reports what the same call on a new
client does. -/
def AsClaimed (beast : Beast) (s : Client) (call : Method) (answers : Answers) : Prop :=
  ∃ s', s.perform beast call answers = .returned s' ∧
    (s'.error = [] ↔ answers.AllSucceed) ∧
    (answers.AllSucceed → s'.respText = answers.reply.body) ∧
    (¬ answers.AllSucceed → s'.respText = []) ∧
    ∀ address, ∃ t, s.fresh.perform beast call { answers with address := address } = .returned t ∧
      t.error = s'.error ∧ t.respText = s'.respText ∧ s'.sent = s.sent ++ t.sent

/-- An operation and those behind it. -/
def Stage.onward : Stage → List Stage
  | .resolve => [.resolve, .connect, .handshake, .write, .read]
  | .connect => [.connect, .handshake, .write, .read]
  | .handshake => [.handshake, .write, .read]
  | .write => [.write, .read]
  | .read => [.read]

/-- The first operation of a list that fails, with its message. -/
def Answers.failureIn (answers : Answers) (stages : List Stage) : Option (Stage × CString) :=
  stages.findSome? fun stage => (answers.outcome stage).map fun message => (stage, message)

/-- The first operation that fails, with its message. -/
def Answers.failure (answers : Answers) : Option (Stage × CString) :=
  answers.failureIn Stage.resolve.onward

/-! ## One call -/

/-- What `error` says when an operation fails. -/
def failureText (address : UInt64) (stage : Stage) (message : CString) : Option Bytes :=
  match stage with
  | .resolve => stringFormat (ascii "resolve host failed:%s") [.str message]
  | .connect => stringFormat (ascii "async connect failed with error:%s") [.str message]
  | .handshake => stringFormat (ascii "async handshake failed with error:%s") [.str message]
  | .write => stringFormat (ascii "async write failed with error:%d") [.int address.toUInt32.toInt32]
  | .read => stringFormat (ascii "async read failed with error:%s") [.str message]

/-- What a call leaves to be seen. -/
structure Report where
  error : Bytes
  respText : Bytes
  sent : List Request

/-- No handler is pending, and the constructor's arguments are kept. -/
structure Follows (s s' : Client) : Prop where
  idle : s'.ioc.pending = []
  host : s'.host = s.host
  port : s'.port = s.port
  target : s'.target = s.target
  token : s'.token = s.token

/-- A client shows a report on top of what was sent before. -/
structure Shows (s s' : Client) (r : Report) : Prop where
  error : s'.error = r.error
  respText : s'.respText = r.respText
  sent : s'.sent = s.sent ++ r.sent

variable (beast : Beast) (answers : Answers)

/-- A round with one handler pending. -/
theorem run_round {s : Client} {stage : Stage} (hone : s.ioc = ⟨false, [stage]⟩) (fuel : Nat) :
    s.run beast answers (fuel + 1)
      = (({ s with ioc := ⟨false, []⟩ }).handle beast answers stage).andThen
          (Client.run beast answers fuel) := by
  rw [Client.run, hone]
  rfl

/-- The last round finds nothing to do. -/
theorem run_idle {s : Client} (hnone : s.ioc = ⟨false, []⟩) (fuel : Nat) :
    s.run beast answers (fuel + 1) = .returned { s with ioc := ⟨true, []⟩ } := by
  rw [Client.run, hnone]
  rfl

/-- A handler that sets `error` starts nothing, so `run` ends. -/
theorem run_failWith {s : Client} (hidle : s.ioc = ⟨false, []⟩) (format : Bytes) (arg : Arg)
    (fuel : Nat) :
    (s.failWith format arg).andThen (Client.run beast answers (fuel + 1))
      = match stringFormat format [arg] with
        | some text => .returned { s with ioc := ⟨true, []⟩, error := text }
        | none => .threw s := by
  unfold Client.failWith
  cases stringFormat format [arg] with
  | none => rfl
  | some text => exact run_idle beast answers (s := { s with error := text }) hidle fuel

/-- The handler of a failed operation ends the run. -/
theorem run_failed {s : Client} {stage : Stage} {message : CString}
    (hone : s.ioc = ⟨false, [stage]⟩) (hfail : answers.outcome stage = some message)
    (fuel : Nat) :
    ∃ buffer res, s.run beast answers (fuel + 2)
      = match failureText answers.address stage message with
        | some text => .returned { s with
            ioc := ⟨true, []⟩, buffer := buffer, res := res, error := text }
        | none => .threw { s with ioc := ⟨false, []⟩, buffer := buffer, res := res } := by
  rw [run_round beast answers hone]
  cases stage with
  | resolve | connect | handshake | write =>
    refine ⟨s.buffer, s.res, ?_⟩
    simp only [Client.handle, hfail, Client.resolved, Client.connected, Client.handshaken,
      Client.written, failureText]
    rw [run_failWith beast answers rfl]
  | read =>
    refine ⟨(beast.readSome s.buffer s.res).2, (beast.readSome s.buffer s.res).1, ?_⟩
    simp only [Client.handle, hfail, Client.received, failureText]
    rw [run_failWith beast answers rfl]

/-- The operation a handler starts when its own succeeded, and what it changes. -/
def Client.next (s : Client) : Stage → Client
  | .resolve => { s with stream := true, ioc := ⟨false, [.connect]⟩ }
  | .connect => { s with ioc := ⟨false, [.handshake]⟩ }
  | .handshake => { s with sent := s.sent ++ [s.req], ioc := ⟨false, [.write]⟩ }
  | .write => { s with buffer := [], res := .empty, ioc := ⟨false, [.read]⟩ }
  | .read =>
    { s with
      buffer := (beast.read s.buffer s.res answers.reply).2
      res := (beast.read s.buffer s.res answers.reply).1
      respText := (beast.read s.buffer s.res answers.reply).1.body
      ioc := ⟨false, []⟩ }

/-- The handler of an operation that succeeded hands over to the next one. -/
theorem run_succeeded {s : Client} {stage : Stage} (hone : s.ioc = ⟨false, [stage]⟩)
    (hstream : stage = .resolve ∨ s.stream = true) (hok : answers.outcome stage = none)
    (fuel : Nat) :
    s.run beast answers (fuel + 1)
      = (s.next beast answers stage).run beast answers fuel := by
  rw [run_round beast answers hone]
  obtain ⟨respText, error, host, port, target, token, stream, req, buffer, res, ioc, sent⟩ := s
  cases hone
  cases stage with
  | resolve =>
    simp only [Client.handle, hok]
    rfl
  | connect | handshake | write =>
    obtain rfl : stream = true := hstream.resolve_left nofun
    simp only [Client.handle, hok]
    rfl
  | read =>
    simp only [Client.handle, hok]
    rfl

/-- What holds between two handlers of a call on `s`. -/
structure Underway (s s₁ : Client) (stage : Stage) : Prop where
  one : s₁.ioc = ⟨false, [stage]⟩
  stream : stage = .resolve ∨ s₁.stream = true
  error : s₁.error = []
  respText : s₁.respText = []
  req : s₁.req = s.req
  sent : s₁.sent = s.sent ++ if stage = .write ∨ stage = .read then [s.req] else []
  /-- Nothing is left over from an earlier response. -/
  clear : stage = .read → s₁.buffer = [] ∧ s₁.res = .empty
  host : s₁.host = s.host
  port : s₁.port = s.port
  target : s₁.target = s.target
  token : s₁.token = s.token

/-- The operation that follows. -/
def Stage.following : Stage → Option Stage
  | .resolve => some .connect
  | .connect => some .handshake
  | .handshake => some .write
  | .write => some .read
  | .read => none

theorem onward_eq (stage : Stage) :
    stage.onward = stage :: (match stage.following with
      | some stage' => stage'.onward
      | none => []) := by
  cases stage <;> rfl

theorem underway_next {s s₁ : Client} {stage stage' : Stage} (h : Underway s s₁ stage)
    (hnext : stage.following = some stage') :
    Underway s (s₁.next beast answers stage) stage' := by
  have hsent := h.sent
  cases stage with
  | resolve =>
    cases hnext
    exact ⟨rfl, .inr rfl, h.error, h.respText, h.req, hsent, nofun, h.host, h.port, h.target,
      h.token⟩
  | connect =>
    cases hnext
    exact ⟨rfl, .inr (h.stream.resolve_left nofun), h.error, h.respText, h.req, hsent, nofun,
      h.host, h.port, h.target, h.token⟩
  | write =>
    cases hnext
    exact ⟨rfl, .inr (h.stream.resolve_left nofun), h.error, h.respText, h.req, hsent,
      fun _ => ⟨rfl, rfl⟩, h.host, h.port, h.target, h.token⟩
  | handshake =>
    cases hnext
    refine ⟨rfl, .inr (h.stream.resolve_left nofun), h.error, h.respText, h.req, ?_, nofun, h.host,
      h.port, h.target, h.token⟩
    show s₁.sent ++ [s₁.req] = s.sent ++ [s.req]
    rw [h.req, hsent]
    exact congrArg (fun l => l ++ [s.req]) (List.append_nil s.sent)
  | read => cases hnext

/-- The report, from the first failure. -/
def Answers.reportOf (answers : Answers) (req : Request) (failure : Option (Stage × CString)) :
    Option Report :=
  match failure with
  | none => some ⟨[], answers.reply.body, [req]⟩
  | some (stage, message) =>
    (failureText answers.address stage message).map fun text =>
      ⟨text, [], if stage = .write ∨ stage = .read then [req] else []⟩

/-- The end of `connect()`. -/
def Client.close (s : Client) : Ended := .returned { s with stream := false }

/-- From any operation on, the call reports the first failure that comes. -/
theorem run_report {s s₁ : Client} {stage : Stage} (h : Underway s s₁ stage) (fuel : Nat)
    (hfuel : stage.onward.length < fuel) :
    ∃ s', Follows s s' ∧
      match answers.reportOf s.req (answers.failureIn stage.onward) with
      | some r => (s₁.run beast answers fuel).andThen Client.close = .returned s' ∧ Shows s s' r
      | none => (s₁.run beast answers fuel).andThen Client.close = .threw s' := by
  induction fuel generalizing s₁ stage with
  | zero => omega
  | succ fuel ih =>
    rw [onward_eq, List.length_cons] at hfuel
    rw [onward_eq, Answers.failureIn, List.findSome?_cons]
    cases hout : answers.outcome stage with
    | some message =>
      obtain ⟨fuel, rfl⟩ : ∃ n, fuel = n + 1 := ⟨fuel - 1, by omega⟩
      obtain ⟨buffer, res, hrun⟩ := run_failed beast answers h.one hout fuel
      rw [hrun]
      dsimp only [Option.map_some, Answers.reportOf]
      cases failureText answers.address stage message with
      | some text =>
        exact ⟨{ s₁ with
            ioc := ⟨true, []⟩, buffer := buffer, res := res, error := text, stream := false },
          ⟨rfl, h.host, h.port, h.target, h.token⟩, rfl, rfl, h.respText, h.sent⟩
      | none =>
        exact ⟨{ s₁ with ioc := ⟨false, []⟩, buffer := buffer, res := res },
          ⟨rfl, h.host, h.port, h.target, h.token⟩, rfl⟩
    | none =>
      rw [run_succeeded beast answers h.one h.stream hout]
      dsimp only [Option.map_none]
      cases hnext : stage.following with
      | some stage' =>
        rw [hnext] at hfuel
        exact ih (underway_next beast answers h hnext) (by simpa using hfuel)
      | none =>
        obtain rfl : stage = .read := by
          cases stage <;> first | rfl | cases hnext
        obtain ⟨fuel, rfl⟩ : ∃ n, fuel = n + 1 := ⟨fuel - 1, by omega⟩
        obtain ⟨hbuffer, hres⟩ := h.clear rfl
        rw [run_idle beast answers rfl]
        refine ⟨{ s₁.next beast answers .read with
            ioc := ⟨true, []⟩, stream := false },
          ⟨rfl, h.host, h.port, h.target, h.token⟩, rfl, h.error, ?_, h.sent⟩
        show (beast.read s₁.buffer s₁.res answers.reply).1.body = answers.reply.body
        rw [hbuffer, hres, beast.read_fresh]

/-- `connect()` reports what its answers say, whatever the members held before. -/
theorem connect_report {s : Client} (hidle : s.ioc.pending = []) :
    ∃ s', Follows s s' ∧
      match answers.reportOf s.req answers.failure with
      | some r => s.connect beast answers = .returned s' ∧ Shows s s' r
      | none => s.connect beast answers = .threw s' := by
  have hstart : Underway s { s with error := [], respText := [], ioc := ⟨false, [.resolve]⟩ }
      .resolve :=
    ⟨rfl, .inl rfl, rfl, rfl, rfl, (List.append_nil _).symm, nofun, rfl, rfl, rfl, rfl⟩
  have hconnect : s.connect beast answers
      = (({ s with error := [], respText := [], ioc := ⟨false, [.resolve]⟩ }).run beast answers
          6).andThen Client.close := by
    rw [Client.connect, Client.start, hidle]
    rfl
  rw [hconnect]
  exact run_report beast answers hstart 6 (by decide)

/-! ## Preparing the request -/

/-- Fields set one after the other in a request. -/
def Request.setAll (beast : Beast) (req : Request) (fields : List (Field × Option Bytes)) :
    Option Request :=
  fields.foldlM (fun req x => x.2.bind fun value => req.set beast x.1 value) req

/-- The request of a draft. -/
def Draft.request (beast : Beast) (d : Draft) : Option Request :=
  (Request.setAll beast ⟨d.verb, d.target, 11, [], []⟩ d.fields).map fun req =>
    { req with body := d.body }

def Method.request (beast : Beast) (s : Client) (call : Method) : Option Request :=
  (call.draft s).bind (Draft.request beast)

/-- A text can be built, and a field takes it. -/
def Settable (beast : Beast) (text : Option Bytes) : Prop :=
  ∃ value, text = some value ∧ (beast.stored value).isSome = true

/-- Every text the call sets as a field can be built and set. -/
def Method.Fits (beast : Beast) (s : Client) (call : Method) : Prop :=
  ∃ d, call.draft s = some d ∧ ∀ x ∈ d.fields, Settable beast x.2

theorem setAll_isSome {beast : Beast} {fields : List (Field × Option Bytes)} {req : Request} :
    (req.setAll beast fields).isSome = true ↔ ∀ x ∈ fields, Settable beast x.2 := by
  induction fields generalizing req with
  | nil => exact ⟨fun _ => List.forall_mem_nil _, fun _ => rfl⟩
  | cons x fields ih =>
    rw [Request.setAll, List.foldlM_cons, List.forall_mem_cons]
    constructor
    · intro h
      obtain ⟨final, hfinal⟩ := Option.isSome_iff_exists.mp h
      obtain ⟨req₁, hset, hrest⟩ := Option.bind_eq_some_iff.mp hfinal
      obtain ⟨value, hvalue, hstored⟩ := Option.bind_eq_some_iff.mp hset
      obtain ⟨v, hv, -⟩ := Option.map_eq_some_iff.mp hstored
      exact ⟨⟨value, hvalue, by rw [hv]; rfl⟩, ih.mp (Option.isSome_of_eq_some hrest)⟩
    · rintro ⟨⟨value, hvalue, hstored⟩, hrest⟩
      obtain ⟨v, hv⟩ := Option.isSome_iff_exists.mp hstored
      rw [hvalue, Option.bind_some, Request.set, hv]
      exact ih.mpr hrest

/-- A request comes about exactly if everything fits. -/
theorem request_isSome {beast : Beast} {s : Client} {call : Method} :
    (call.request beast s).isSome = true ↔ call.Fits beast s := by
  unfold Method.request Method.Fits
  cases call.draft s with
  | none => exact ⟨nofun, nofun⟩
  | some d =>
    rw [Option.bind_some, Draft.request, Option.isSome_map, setAll_isSome]
    exact ⟨fun h => ⟨d, rfl, h⟩, fun ⟨_, hd, h⟩ => Option.some.inj hd ▸ h⟩

/-- The calls of `set` change `req` only. -/
theorem setFields_eq (fields : List (Field × Option Bytes)) (s : Client) :
    match s.req.setAll beast fields with
    | some req => s.setFields beast fields = .returned { s with req := req }
    | none => ∃ req, s.setFields beast fields = .threw { s with req := req } := by
  induction fields generalizing s with
  | nil => rfl
  | cons x fields ih =>
    rw [Request.setAll, List.foldlM_cons, Client.setFields]
    cases hset : x.2.bind fun value => s.req.set beast x.1 value with
    | none => exact ⟨s.req, rfl⟩
    | some req => exact ih { s with req := req }

/-- What a call on this client reports; `none` if it throws. -/
def Client.report (beast : Beast) (s : Client) (call : Method) (answers : Answers) : Option Report :=
  (call.request beast s).bind fun req => answers.reportOf req answers.failure

/-- **One call.** It reports what follows from the constructor's arguments, the call
and the answers, and leaves no handler behind. -/
theorem perform_report {s : Client} (hidle : s.ioc.pending = []) (call : Method) :
    ∃ s', Follows s s' ∧
      match s.report beast call answers with
      | some r => s.perform beast call answers = .returned s' ∧ Shows s s' r
      | none => s.perform beast call answers = .threw s' := by
  unfold Client.report Method.request Client.perform
  cases call.draft s with
  | none => exact ⟨s, ⟨hidle, rfl, rfl, rfl, rfl⟩, rfl⟩
  | some d =>
    have hset := setFields_eq beast d.fields
      { s with req := ⟨d.verb, d.target, 11, [], []⟩ }
    dsimp only [Option.bind_some]
    unfold Draft.request
    cases hall : Request.setAll beast ⟨d.verb, d.target, 11, [], []⟩ d.fields with
    | none =>
      simp only [hall] at hset
      obtain ⟨req, hset⟩ := hset
      rw [hset]
      exact ⟨{ s with req := req }, ⟨hidle, rfl, rfl, rfl, rfl⟩, rfl⟩
    | some req =>
      simp only [hall] at hset
      rw [hset]
      obtain ⟨s', hs', hrep⟩ := @connect_report beast answers
        { s with req := { req with body := d.body } } hidle
      refine ⟨s', ⟨hs'.idle, hs'.host, hs'.port, hs'.target, hs'.token⟩, ?_⟩
      dsimp only [Option.map_some, Option.bind_some, Ended.andThen]
      cases hr : answers.reportOf { req with body := d.body } answers.failure with
      | none =>
        simp only [hr] at hrep
        exact hrep
      | some r =>
        simp only [hr] at hrep
        exact ⟨hrep.1, hrep.2.error, hrep.2.respText, hrep.2.sent⟩

variable {beast answers}

theorem Shows.unique {s s' : Client} {r r' : Report} (h : Shows s s' r) (h' : Shows s s' r') :
    r = r' := by
  obtain ⟨error, respText, sent⟩ := r
  obtain ⟨error', respText', sent'⟩ := r'
  obtain rfl : error = error' := h.error.symm.trans h'.error
  obtain rfl : respText = respText' := h.respText.symm.trans h'.respText
  obtain rfl : sent = sent' := List.append_cancel_left (h.sent.symm.trans h'.sent)
  rfl

/-- A call with a report returns and shows it. -/
theorem returned_of_report {s : Client} {call : Method} {r : Report} (hidle : s.ioc.pending = [])
    (h : s.report beast call answers = some r) :
    ∃ s', s.perform beast call answers = .returned s' ∧ Shows s s' r := by
  obtain ⟨s', -, hrep⟩ := perform_report beast answers hidle call
  simp only [h] at hrep
  exact ⟨s', hrep⟩

/-- A call that returns shows its report. -/
theorem report_of_returned {s s' : Client} {call : Method} (hidle : s.ioc.pending = [])
    (hret : s.perform beast call answers = .returned s') :
    ∃ r, s.report beast call answers = some r ∧ Shows s s' r := by
  obtain ⟨s₁, -, hrep⟩ := perform_report beast answers hidle call
  cases hr : s.report beast call answers with
  | none =>
    simp only [hr] at hrep
    cases hrep.symm.trans hret
  | some r =>
    simp only [hr] at hrep
    cases hrep.1.symm.trans hret
    exact ⟨r, rfl, hrep.2⟩

/-! ## The texts -/

/-- What an error text starts with. -/
def Stage.announces : Stage → Bytes
  | .resolve => ascii "resolve host failed:"
  | .connect => ascii "async connect failed with error:"
  | .handshake => ascii "async handshake failed with error:"
  | .write => ascii "async write failed with error:"
  | .read => ascii "async read failed with error:"

theorem snprintf_announced {text : Bytes} (h : 0x25 ∉ text) (message : CString) :
    snprintf (text ++ ascii "%s") [.str message] = some (text ++ message.bytes) := by
  have hformat : ascii "%s" = 0x25 :: 0x73 :: [] := by decide
  rw [snprintf_append h, hformat, snprintf_str, snprintf, Option.map_some, Option.map_some,
    List.append_nil]

/-- Every text but the one for a failed write ends with the message. -/
theorem failureText_message {stage : Stage} (h : stage ≠ .write) (address : UInt64)
    (message : CString) :
    failureText address stage message
      = if stage.announces.length + message.bytes.length < INT_MAX then
          some (stage.announces ++ message.bytes)
        else none := by
  have hshape : failureText address stage message
      = stringFormat (stage.announces ++ ascii "%s") [.str message] := by
    cases stage with
    | write => exact absurd rfl h
    | resolve | connect | handshake | read =>
      exact congrArg (fun format => stringFormat format [.str message]) (by decide)
  have hplain : 0x25 ∉ stage.announces := by
    cases stage <;> decide
  rw [hshape, stringFormat, snprintf_announced hplain, Option.bind_some, List.length_append]

/-- The text for a failed write ends with a number that has nothing to do with it. -/
theorem failureText_write (address : UInt64) (message : CString) :
    failureText address .write message
      = some (Stage.write.announces ++ decimal address.toUInt32.toInt32) := by
  have hlen := length_decimal address.toUInt32.toInt32
  have hformat : ascii "async write failed with error:%d"
      = Stage.write.announces ++ 0x25 :: 0x64 :: [] := by decide
  have hplain : 0x25 ∉ Stage.write.announces := by decide
  have hnumber : snprintf (0x25 :: 0x64 :: []) [.int address.toUInt32.toInt32]
      = some (decimal address.toUInt32.toInt32) := by
    rw [snprintf.eq_def]
    exact congrArg some (List.append_nil _)
  have hannounce : Stage.write.announces.length = 30 := by decide
  rw [failureText, stringFormat, hformat, snprintf_append hplain, hnumber, Option.map_some,
    Option.bind_some, if_pos]
  rw [List.length_append]
  unfold INT_MAX
  omega

theorem failureText_ne_nil {address : UInt64} {stage : Stage} {message : CString} {text : Bytes}
    (h : failureText address stage message = some text) : text ≠ [] := by
  have hannounce : stage.announces ≠ [] := by
    cases stage <;> decide
  by_cases hwrite : stage = .write
  · subst hwrite
    rw [failureText_write] at h
    cases h
    exact List.append_ne_nil_of_left_ne_nil hannounce _
  · rw [failureText_message hwrite] at h
    cases (Option.ite_none_right_eq_some.mp h).2
    exact List.append_ne_nil_of_left_ne_nil hannounce _

/-! ## Exactly when a call does what it should -/

/-- The first operation that fails, if any does, is not the write, and its message
leaves the text shorter than `INT_MAX`. -/
def Answers.Told (answers : Answers) : Prop :=
  ∀ stage message, answers.failure = some (stage, message) →
    stage ≠ .write ∧ stage.announces.length + message.bytes.length < INT_MAX

theorem failure_eq_none : answers.failure = none ↔ answers.AllSucceed := by
  unfold Answers.failure Answers.failureIn Answers.AllSucceed
  rw [List.findSome?_eq_none_iff]
  constructor
  · intro h stage
    exact Option.map_eq_none_iff.mp (h stage (by cases stage <;> decide))
  · intro h stage _
    rw [h stage]
    rfl

/-- A report that is told does not depend on any address. -/
theorem reportOf_of_told (htold : answers.Told) (req : Request) :
    ∃ r, (r.error = [] ↔ answers.AllSucceed) ∧
      (answers.AllSucceed → r.respText = answers.reply.body) ∧
      (¬ answers.AllSucceed → r.respText = []) ∧
      ∀ address, Answers.reportOf { answers with address := address } req answers.failure = some r := by
  rw [← failure_eq_none]
  cases hf : answers.failure with
  | none =>
    exact ⟨⟨[], answers.reply.body, [req]⟩, ⟨fun _ => rfl, fun _ => rfl⟩, fun _ => rfl,
      fun h => absurd rfl h, fun _ => rfl⟩
  | some x =>
    obtain ⟨stage, message⟩ := x
    obtain ⟨hne, hlen⟩ := htold stage message hf
    have htext : ∀ address, failureText address stage message
        = some (stage.announces ++ message.bytes) := by
      intro address
      rw [failureText_message hne, if_pos hlen]
    refine ⟨⟨stage.announces ++ message.bytes, [],
      if stage = .write ∨ stage = .read then [req] else []⟩,
      ⟨fun h => absurd h (failureText_ne_nil (htext 0)), nofun⟩, nofun, fun _ => rfl, ?_⟩
    intro address
    unfold Answers.reportOf
    dsimp only
    rw [htext address]
    rfl

/-- A report that does not depend on any address is told. -/
theorem told_of_report {req : Request} {r : Report}
    (h : ∀ address, Answers.reportOf { answers with address := address } req answers.failure
      = some r) : answers.Told := by
  intro stage message hf
  have htext : ∀ address, failureText address stage message = some r.error := by
    intro address
    have hrep := h address
    rw [hf] at hrep
    obtain ⟨text, htext, rfl⟩ := Option.map_eq_some_iff.mp hrep
    exact htext
  by_cases hwrite : stage = .write
  · subst hwrite
    -- two addresses that print differently
    have hat := (htext 0).trans (htext 1).symm
    rw [failureText_write, failureText_write, Option.some.injEq] at hat
    exact absurd (List.append_cancel_left hat) (by decide)
  · have hfits := htext 0
    rw [failureText_message hwrite] at hfits
    exact ⟨hwrite, (Option.ite_none_right_eq_some.mp hfits).1⟩

/-- A draft is made of the constructor's arguments and the call. -/
theorem draft_follows {s s' : Client} (h : Follows s s') (call : Method) :
    call.draft s' = call.draft s := by
  cases call with
  | GET => rw [Method.draft, Client.GET, h.host, h.target, h.token]; rfl
  | GETParameters | PUT =>
    simp only [Method.draft, Client.GETParameters, Client.PUT, Client.withParameters, h.host]
  | POSTBlocks data => simp only [Method.draft, Client.POSTBlocks, h.host, h.target, h.token]
  | POST => simp only [Method.draft, Client.POST, h.host]

/-- A new client reports what this one does. -/
theorem report_fresh (s : Client) (call : Method) (answers : Answers) :
    s.fresh.report beast call answers = s.report beast call answers := by
  unfold Client.report Method.request
  rw [@draft_follows s s.fresh ⟨rfl, rfl, rfl, rfl, rfl⟩]

/-- A call does what it should exactly if there is a report to that effect, and the same
one wherever the message lies. -/
theorem as_claimed_iff_report {s : Client} (hidle : s.ioc.pending = []) (call : Method) :
    AsClaimed beast s call answers ↔
      ∃ r, (r.error = [] ↔ answers.AllSucceed) ∧
        (answers.AllSucceed → r.respText = answers.reply.body) ∧
        (¬ answers.AllSucceed → r.respText = []) ∧
        ∀ address, s.report beast call { answers with address := address } = some r := by
  constructor
  · rintro ⟨s', hret, herror, hbody, hempty, hsame⟩
    obtain ⟨r, hr, hshows⟩ := report_of_returned hidle hret
    refine ⟨r, hshows.error ▸ herror, hshows.respText ▸ hbody, hshows.respText ▸ hempty, ?_⟩
    intro address
    obtain ⟨t, ht, herror', hrespText', hsent'⟩ := hsame address
    obtain ⟨r', hr', hthat⟩ := report_of_returned (s := s.fresh) rfl ht
    have hshows' : Shows s s' r' :=
      ⟨herror' ▸ hthat.error, hrespText' ▸ hthat.respText, by rw [hsent', hthat.sent]; rfl⟩
    rw [← report_fresh, hr', hshows.unique hshows']
  · rintro ⟨r, herror, hbody, hempty, hrep⟩
    obtain ⟨s', hret, hshows⟩ := returned_of_report hidle (hrep answers.address)
    refine ⟨s', hret, hshows.error ▸ herror, fun h => hshows.respText.trans (hbody h),
      fun h => hshows.respText.trans (hempty h), fun address => ?_⟩
    obtain ⟨t, ht, hthat⟩ :=
      returned_of_report (s := s.fresh) rfl ((report_fresh s call _).trans (hrep address))
    have hsent : t.sent = r.sent := hthat.sent
    exact ⟨t, ht, hthat.error.trans hshows.error.symm, hthat.respText.trans hshows.respText.symm,
      by rw [hsent, hshows.sent]⟩

theorem as_claimed_of_idle {s : Client} (hidle : s.ioc.pending = []) (call : Method) :
    AsClaimed beast s call answers ↔ call.Fits beast s ∧ answers.Told := by
  rw [as_claimed_iff_report hidle, ← request_isSome]
  unfold Client.report
  constructor
  · rintro ⟨r, -, -, -, hrep⟩
    obtain ⟨req, hreq, -⟩ := Option.bind_eq_some_iff.mp (hrep 0)
    refine ⟨Option.isSome_of_eq_some hreq, @told_of_report answers req r fun address => ?_⟩
    rw [← hrep address, hreq]
    rfl
  · rintro ⟨hfits, htold⟩
    obtain ⟨req, hreq⟩ := Option.isSome_iff_exists.mp hfits
    rw [hreq]
    exact reportOf_of_told htold req

/-! ## Sequences of calls -/

theorem Follows.trans {s₁ s₂ s₃ : Client} (h : Follows s₁ s₂) (h' : Follows s₂ s₃) :
    Follows s₁ s₃ :=
  ⟨h'.idle, h'.host.trans h.host, h'.port.trans h.port, h'.target.trans h.target,
    h'.token.trans h.token⟩

/-- Whatever calls were made, the next one finds no handler pending. -/
theorem after_follows (beast : Beast) {c : Client} (hidle : c.ioc.pending = [])
    (history : List (Method × Answers)) :
    ∃ s, c.after beast history = some s ∧ Follows c s := by
  induction history generalizing c with
  | nil => exact ⟨c, rfl, hidle, rfl, rfl, rfl, rfl⟩
  | cons x history ih =>
    obtain ⟨call, answers⟩ := x
    obtain ⟨s₁, hs₁, hone⟩ := perform_report beast answers hidle call
    obtain ⟨s, hs, hfollow⟩ := ih hs₁.idle
    refine ⟨s, ?_, hs₁.trans hfollow⟩
    rw [Client.after]
    cases hr : c.report beast call answers with
    | none =>
      simp only [hr] at hone
      rw [hone]
      exact hs
    | some r =>
      simp only [hr] at hone
      rw [hone.1]
      exact hs

/-- The two constructors. -/
inductive Construction where
  | named (host port target token : Bytes)
  | numbered (host : Bytes) (port : Int32)

def Construction.client : Construction → Option Client
  | .named host port target token => some (.named host port target token)
  | .numbered host port => Client.numbered host port

/-- The port's text is never too long. -/
theorem client_idle (made : Construction) : ∃ c, made.client = some c ∧ c.ioc.pending = [] := by
  cases made with
  | named host port target token => exact ⟨_, rfl, rfl⟩
  | numbered host port =>
    refine ⟨.named host (decimal port) [] [], ?_, rfl⟩
    rw [Construction.client, Client.numbered, stringFormat_int]
    rfl

/-- **Outcome and independence.** After any sequence of calls, however each ended, the
next call does what it should exactly if its texts fit and the first operation that
fails, if one does, is not the write. -/
theorem as_claimed_iff (beast : Beast) (made : Construction) :
    ∃ c, made.client = some c ∧ ∀ history, ∃ s, c.after beast history = some s ∧
      ∀ call answers, AsClaimed beast s call answers ↔ call.Fits beast c ∧ answers.Told := by
  obtain ⟨c, hc, hidle⟩ := client_idle made
  refine ⟨c, hc, fun history => ?_⟩
  obtain ⟨s, hs, hfollow⟩ := after_follows beast hidle history
  refine ⟨s, hs, fun call answers => ?_⟩
  rw [as_claimed_of_idle hfollow.idle, Method.Fits, Method.Fits, draft_follows hfollow]

/-- Every field value is stored as it is. -/
def plainBeast : Beast where
  stored := some
  read := fun buffer res reply => (⟨res.fields ++ reply.fields, res.body ++ reply.body⟩, buffer)
  readSome := fun buffer res => (res, buffer)
  read_fresh := fun _ => rfl

/-- The peer closes the connection while the request is written. -/
def brokenPipe : Answers where
  outcome
    | .write => some ⟨ascii "Broken pipe", by decide⟩
    | _ => none
  reply := .empty
  address := 0

/-- What a first `GET()` says of a failed write is not what it would say elsewhere. -/
theorem failed_write_not_told : ¬ ∀ (beast : Beast) (made : Construction), ∃ c,
    made.client = some c ∧ ∀ history, ∃ s, c.after beast history = some s ∧
      ∀ call answers, AsClaimed beast s call answers := by
  intro h
  obtain ⟨c, hc, hall⟩ := h plainBeast (.numbered (ascii "localhost") 443)
  obtain ⟨s, hs, hnext⟩ := hall []
  cases hs
  obtain ⟨d, hd, hidle⟩ := client_idle (.numbered (ascii "localhost") 443)
  cases hc.symm.trans hd
  have htold := ((as_claimed_of_idle hidle _).mp (hnext .GET brokenPipe)).2
  exact (htold .write ⟨ascii "Broken pipe", by decide⟩ rfl).1 rfl

end CommonCpp.Http
