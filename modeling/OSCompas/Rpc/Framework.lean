import OSCompas.Lib.Progress
import Mathlib.Logic.Function.Basic

/-!
# The RPC framework

`rpc_framework.c`: a server thread scans a table of requests in shared memory and answers those
that are ready; a client fills in a request, sets `ready`, polls `processed` and takes the result.
Each access to a field of a request is a step, so the server and the clients interleave between
any two of them. At most one call is in progress on a request.

Only `ready` and `processed` are `volatile`: the language keeps the order of their accesses, and
lets a compiler move those of the other fields across them. The server calls `pthread_mutex_lock`,
`printf` and `pthread_mutex_unlock` in between, which nothing crosses; for `rpc_call` the code that
runs is a parameter (`Compiled`), and the results are about code in which nothing has crossed an
access of the two (`Compiled.Kept`).

* `RpcRequest`, `add`, `sub`, `mul`, `divSafe`, `rpcMethods` — as in the source;
* `Stage`, `serveStep` — where the body of the scanning loop is, and its next access;
* `Field`, `RpcRequest.store`, `Compiled` — the stores of `rpc_call` and their order;
* `ClientPc`, `callStep` — where `rpc_call` is, and its next access;
* `State`, `State.step` — the table, the server, the clients, and what they did;
* `Call.value` — the answer a call should get.

Principal results: `Sound` (what the two parties rely on, kept by every step as `Sound.step`),
`fault_traps` (the process is ended by the division of `INT_MIN` by -1 only), `returned_value` (no
call ever returns anything but its own answer; `moved_stores` and `folded_load` are code that `Kept`
excludes and where one does) and `served_once` (every call is processed exactly once, in order).
-/

set_option autoImplicit false

namespace OSCompas.Rpc

open Function

/-! ## The source -/

/-- `rpc_request_t`. -/
structure RpcRequest where
  methodId : Int32
  param1 : Int32
  param2 : Int32
  result : Int32
  ready : Int32
  processed : Int32

def add (a b : Int32) : Option Int32 := some (a + b)
def sub (a b : Int32) : Option Int32 := some (a - b)
def mul (a b : Int32) : Option Int32 := some (a * b)

/-- The quotient of `INT_MIN` and -1 is no `int`: the division instruction traps. -/
def divSafe (a b : Int32) : Option Int32 :=
  if b ≠ 0 then if a = Int32.minValue ∧ b = -1 then none else some (a / b) else some 0

/-- `rpc_methods`, in arithmetic that wraps; behind them the table has its `NULL`. -/
def rpcMethods : List (Int32 → Int32 → Option Int32) := [add, sub, mul, divSafe]

/-- Where the body of the server's loop is. -/
inductive Stage where
  /-- About to read `ready`. -/
  | scan
  | processed
  | lock
  /-- About to compare `method_id` with the bounds of the table. -/
  | check
  | method
  | param1 (m : Int32)
  | param2 (m a : Int32)
  | store (r : Int32)
  | finish
  | unlock
  /-- In `usleep`, after the last request. -/
  | sleep
  /-- The table has no method there, or the method trapped: the process is ended. -/
  | fault
  deriving DecidableEq

/-- The body's next access to the request; no stage: on to the next request. -/
def serveStep (req : RpcRequest) : Stage → RpcRequest × Option Stage
  | .scan => (req, if req.ready ≠ 0 then some .processed else none)
  | .processed => (req, if req.processed = 0 then some .lock else none)
  | .lock => (req, some .check)
  | .check => (req, if 0 ≤ req.methodId ∧ req.methodId < 4 then some .method else some .finish)
  | .method => (req, some (.param1 req.methodId))
  | .param1 m => (req, some (.param2 m req.param1))
  | .param2 m a =>
    match (rpcMethods[m.toNatClampNeg]?).bind fun f => f a req.param2 with
    | some r => (req, some (.store r))
    | none => (req, some .fault)
  | .store r => ({ req with result := r }, some .finish)
  | .finish => ({ req with processed := 1 }, some .unlock)
  | .unlock => (req, none)
  | .sleep => (req, none)
  | .fault => (req, some .fault)

/-- The arguments of `rpc_call`. -/
structure Call where
  methodId : Int32
  param1 : Int32
  param2 : Int32
  deriving DecidableEq

/-- The fields `rpc_call` stores to, each once. -/
inductive Field where
  | methodId
  | param1
  | param2
  | result
  | processed
  | ready
  deriving DecidableEq

/-- The store of `rpc_call` to a field. -/
def RpcRequest.store (req : RpcRequest) (c : Call) : Field → RpcRequest
  | .methodId => { req with methodId := c.methodId }
  | .param1 => { req with param1 := c.param1 }
  | .param2 => { req with param2 := c.param2 }
  | .result => { req with result := 0 }
  | .processed => { req with processed := 0 }
  | .ready => { req with ready := 1 }

/-- The stores in the order of the source. -/
def Field.all : List Field := [methodId, param1, param2, result, processed, ready]

/-- What a compiler has made of `rpc_call`. -/
structure Compiled where
  /-- The stores in the order they are done. -/
  stores : List Field
  /-- The value returned is the 0 of the store to `result`; the field is not read again. -/
  folded : Bool

/-- `rpc_call` as it is written. -/
def Compiled.source : Compiled := ⟨Field.all, false⟩

/-- The fields that are not `volatile`. -/
def Field.plain : List Field := [methodId, param1, param2, result]

/-- No access has been moved across those of `processed` and `ready`. -/
def Compiled.Kept (code : Compiled) : Prop :=
  (∃ data, data.Perm Field.plain ∧ code.stores = data ++ [.processed, .ready]) ∧
    code.folded = false

/-- Where a client is: outside `rpc_call`, with these stores left, or about to do the named
access. -/
inductive ClientPc where
  | idle
  | store (c : Call) (rest : List Field)
  | poll (c : Call)
  | clear (c : Call)
  | fetch (c : Call)
  deriving DecidableEq

/-- The next access of `rpc_call`, and what it returns after its last one. -/
def callStep (code : Compiled) (req : RpcRequest) :
    ClientPc → RpcRequest × ClientPc × Option (Call × Int32)
  | .idle => (req, .idle, none)
  | .store c [] => (req, .poll c, none)
  | .store c (f :: rest) => (req.store c f, .store c rest, none)
  | .poll c => (req, if req.processed = 0 then .poll c else .clear c, none)
  | .clear c => ({ req with ready := 0 }, .fetch c, none)
  | .fetch c => (req, .idle, some (c, if code.folded then 0 else req.result))

/-- The server thread: the request its loop is at, and whether it holds `lock`. -/
structure Server where
  i : Nat
  stage : Stage
  locked : Bool

/-- The table and the threads; `served` and `returned` list, for each request, the calls the server
has processed and those that came back with their values. -/
structure State where
  requests : Nat → RpcRequest
  clients : Nat → ClientPc
  server : Server
  served : Nat → List Call
  returned : Nat → List (Call × Int32)

/-- The stages between `pthread_mutex_lock` and `pthread_mutex_unlock`. -/
def Stage.holds : Stage → Bool
  | .scan | .processed | .lock | .sleep => false
  | _ => true

/-- What can happen next. -/
inductive Action where
  | server
  | client (i : Nat)
  /-- A thread calls `rpc_call` on request `i`. -/
  | call (i : Nat) (c : Call)
  deriving DecidableEq

def Action.isServer : Action → Bool
  | server => true
  | _ => false

/-- The call a request describes. -/
def RpcRequest.call (req : RpcRequest) : Call := ⟨req.methodId, req.param1, req.param2⟩

theorem Call.eq_of {req : RpcRequest} {c : Call} (hm : req.methodId = c.methodId)
    (h1 : req.param1 = c.param1) (h2 : req.param2 = c.param2) : req.call = c := by
  rw [RpcRequest.call, hm, h1, h2]

/-- `lock` is taken at one stage, if it is free, and released at another. -/
def Server.takes (v : Server) : Option Bool :=
  match v.stage with
  | .lock => if v.locked then none else some true
  | .unlock => some false
  | _ => some v.locked

/-- The next step of `rpc_server_thread`. -/
def State.serverStep (requestCount : Nat) (s : State) : Option State :=
  let i := s.server.i
  if s.server.stage = .sleep then
    some { s with server := { s.server with i := 0, stage := .scan } }
  else if i < requestCount then
    s.server.takes.map fun locked =>
      let (req, stage?) := serveStep (s.requests i) s.server.stage
      { s with
        requests := update s.requests i req
        server := match stage? with
          | some stage => ⟨i, stage, locked⟩
          | none => ⟨i + 1, .scan, locked⟩
        served := if s.server.stage = .finish then
            update s.served i (s.served i ++ [(s.requests i).call])
          else s.served }
  else some { s with server := { s.server with stage := .sleep } }

/-- The next step of the client of request `i`. -/
def State.clientStep (code : Compiled) (s : State) (i : Nat) : State :=
  let (req, pc, value?) := callStep code (s.requests i) (s.clients i)
  { s with
    requests := update s.requests i req
    clients := update s.clients i pc
    returned := update s.returned i (s.returned i ++ value?.toList) }

/-- What an action does while the process lives. -/
def State.act (code : Compiled) (requestCount : Nat) (s : State) : Action → Option State
  | .server => s.serverStep requestCount
  | .client i => some (s.clientStep code i)
  | .call i c =>
    match s.clients i with
    | .idle => some { s with clients := update s.clients i (.store c code.stores) }
    | _ => none

def State.step (code : Compiled) (requestCount : Nat) (s : State) (a : Action) : Option State :=
  if s.server.stage = .fault then none else s.act code requestCount a

/-- After `memset`, with the server at the start of its loop. -/
def State.initial : State where
  requests _ := ⟨0, 0, 0, 0, 0, 0⟩
  clients _ := .idle
  server := ⟨0, .scan, false⟩
  served _ := []
  returned _ := []

/-! ## What a call should return -/

/-- The division of the source traps. -/
def Call.Traps (c : Call) : Prop :=
  c.methodId = 3 ∧ c.param1 = Int32.minValue ∧ c.param2 = -1

/-- The answer of a call; an unknown method answers 0. -/
def Call.value (c : Call) : Int32 :=
  if c.methodId = 0 then c.param1 + c.param2
  else if c.methodId = 1 then c.param1 - c.param2
  else if c.methodId = 2 then c.param1 * c.param2
  else if c.methodId = 3 then if c.param2 = 0 then 0 else c.param1 / c.param2
  else 0

/-- The test of the server. -/
def Call.Known (c : Call) : Prop := 0 ≤ c.methodId ∧ c.methodId < 4

theorem Call.Known.cases {c : Call} (h : c.Known) :
    c.methodId = 0 ∨ c.methodId = 1 ∨ c.methodId = 2 ∨ c.methodId = 3 := by
  obtain ⟨h0, h4⟩ := h
  rw [Int32.le_iff_toInt_le] at h0
  rw [Int32.lt_iff_toInt_lt] at h4
  simp only [← Int32.toInt_inj]
  have : (0 : Int32).toInt = 0 ∧ (1 : Int32).toInt = 1 ∧ (2 : Int32).toInt = 2 ∧
    (3 : Int32).toInt = 3 ∧ (4 : Int32).toInt = 4 := by decide
  omega

/-- **The table holds the method of every call that passes the test**, which answers it or traps. -/
theorem Call.Known.method {c : Call} (h : c.Known) :
    ∃ f, rpcMethods[c.methodId.toNatClampNeg]? = some f ∧
      (f c.param1 c.param2 = some c.value ∨ f c.param1 c.param2 = none ∧ c.Traps) := by
  obtain h | h | h | h := h.cases
  · exact ⟨add, by rw [h]; rfl, .inl (by simp [Call.value, h, add])⟩
  · exact ⟨sub, by rw [h]; rfl, .inl (by simp [Call.value, h, sub])⟩
  · exact ⟨mul, by rw [h]; rfl, .inl (by simp [Call.value, h, mul])⟩
  · refine ⟨divSafe, by rw [h]; rfl, ?_⟩
    by_cases hb : c.param2 = 0
    · exact .inl (by simp [Call.value, h, divSafe, hb])
    · by_cases ht : c.param1 = Int32.minValue ∧ c.param2 = -1
      · exact .inr ⟨by simp [divSafe, ht], h, ht⟩
      · exact .inl (by simp [Call.value, h, divSafe, hb, ht])

theorem Call.value_of_not_known {c : Call} (h : ¬ c.Known) : c.value = 0 := by
  have hne (k : Int32) (hk : 0 ≤ k ∧ k < 4) : c.methodId ≠ k := by
    rintro rfl
    exact h hk
  rw [value, if_neg (hne 0 (by decide)), if_neg (hne 1 (by decide)), if_neg (hne 2 (by decide)),
    if_neg (hne 3 (by decide))]

/-! ## What the parties rely on -/

/-- Where the server is with request `i`. -/
def Server.stageAt (v : Server) (i : Nat) : Stage := if v.i = i then v.stage else .scan

/-- The server will not work on a request that stays as it is. -/
def Away (req : RpcRequest) (st : Stage) : Prop :=
  st = .scan ∨ st = .unlock ∨ st = .sleep ∨ st = .processed ∧ req.processed ≠ 0

/-- What the server has read of call `c`, and left in its result. -/
def Serving (c : Call) (req : RpcRequest) : Stage → Prop
  | .scan | .processed | .lock | .check | .unlock | .sleep => req.result = 0
  | .method => c.Known ∧ req.result = 0
  | .param1 m => c.Known ∧ m = c.methodId ∧ req.result = 0
  | .param2 m a => c.Known ∧ m = c.methodId ∧ a = c.param1 ∧ req.result = 0
  | .store r => r = c.value
  | .finish => req.result = c.value
  | .fault => c.Traps

/-- Call `c` is in the request and not yet answered. -/
structure Pending (c : Call) (req : RpcRequest) (st : Stage) : Prop where
  call : req.call = c
  processed : req.processed = 0
  serving : Serving c req st

/-- Call `c` is in the request and answered. -/
structure Answered (c : Call) (req : RpcRequest) (st : Stage) : Prop where
  call : req.call = c
  processed : req.processed ≠ 0
  away : Away req st
  result : req.result = c.value

/-- The call in progress is answered or not; the log of the server says which. -/
def InProgress (c : Call) (req : RpcRequest) (st : Stage) (served calls : List Call) : Prop :=
  Pending c req st ∧ served = calls ∨ Answered c req st ∧ served = calls ++ [c]

/-- The stores of call `c` to the fields that are not `volatile` are done, up to those in `data`. -/
structure Storing (c : Call) (req : RpcRequest) (data : List Field) : Prop where
  left : data ⊆ Field.plain
  done : ∀ f ∈ Field.plain, f ∉ data → req.store c f = req

/-- What holds of a request, the server's place at it and the two logs, by where the client is. -/
def Good (req : RpcRequest) (st : Stage) (served calls : List Call) : ClientPc → Prop
  | .idle => Away req st ∧ req.ready = 0 ∧ served = calls
  | .store c rest =>
    (∃ data, rest = data ++ [.processed, .ready] ∧ Storing c req data ∧ Away req st ∧
      req.ready = 0 ∧ served = calls) ∨
    (rest = [.ready] ∧ req.ready = 0 ∨ rest = [] ∧ req.ready ≠ 0) ∧
      InProgress c req st served calls
  | .poll c => req.ready ≠ 0 ∧ InProgress c req st served calls
  | .clear c => req.ready ≠ 0 ∧ Answered c req st ∧ served = calls ++ [c]
  | .fetch c => req.ready = 0 ∧ Answered c req st ∧ served = calls ++ [c]

variable {code : Compiled} {req : RpcRequest} {st : Stage} {served calls : List Call} {c : Call}
  {pc : ClientPc} {f : Field} {data : List Field}

/-! ### A step of the server -/

/-- Where the server is with the request after a step. -/
def after (stage? : Option Stage) : Stage := stage?.getD .scan

theorem Away.serve (h : Away req st) (hr : req.ready = 0 ∨ req.processed ≠ 0) :
    (serveStep req st).1 = req ∧ st ≠ .finish ∧ Away req (after (serveStep req st).2) := by
  obtain rfl | rfl | rfl | ⟨rfl, hp⟩ := h
  · refine ⟨rfl, nofun, ?_⟩
    by_cases h0 : req.ready = 0
    · left
      simp [serveStep, after, h0]
    · right; right; right
      exact ⟨by simp [serveStep, after, h0], hr.resolve_left h0⟩
  · exact ⟨rfl, nofun, .inl rfl⟩
  · exact ⟨rfl, nofun, .inl rfl⟩
  · refine ⟨rfl, nofun, .inl ?_⟩
    simp [serveStep, after, hp]

/-- The server works through a pending call with the call's own fields and answers it. -/
theorem Pending.serve (h : Pending c req st) :
    (serveStep req st).1.ready = req.ready ∧
      (st ≠ .finish ∧ Pending c (serveStep req st).1 (after (serveStep req st).2) ∨
        st = .finish ∧ Answered c (serveStep req st).1 (after (serveStep req st).2)) := by
  obtain ⟨hc, hp, hs⟩ := h
  cases st with
  | scan =>
    refine ⟨rfl, .inl ⟨nofun, hc, hp, ?_⟩⟩
    have hs : req.result = 0 := hs
    by_cases h0 : req.ready = 0 <;> simpa [serveStep, after, Serving, h0] using hs
  | processed =>
    have hs : req.result = 0 := hs
    exact ⟨rfl, .inl ⟨nofun, hc, hp, by simpa [serveStep, after, Serving, hp] using hs⟩⟩
  | lock => exact ⟨rfl, .inl ⟨nofun, hc, hp, hs⟩⟩
  | check =>
    refine ⟨rfl, .inl ⟨nofun, hc, hp, ?_⟩⟩
    have hm : req.methodId = c.methodId := by rw [← hc]; rfl
    by_cases hk : c.Known
    · have hk' := hk
      simp only [Call.Known, ← hm] at hk'
      simpa [serveStep, after, hk', Serving] using And.intro hk hs
    · have hk' := hk
      simp only [Call.Known, ← hm] at hk'
      have hs : req.result = 0 := hs
      simp only [serveStep, after, hk', if_false, Option.getD_some, Serving,
        Call.value_of_not_known hk]
      exact hs
  | method => exact ⟨rfl, .inl ⟨nofun, hc, hp, hs.1, by rw [← hc]; rfl, hs.2⟩⟩
  | param1 m => exact ⟨rfl, .inl ⟨nofun, hc, hp, hs.1, hs.2.1, by rw [← hc]; rfl, hs.2.2⟩⟩
  | param2 m a =>
    obtain ⟨hk, rfl, rfl, h0⟩ := hs
    obtain ⟨f, hf, hv⟩ := hk.method
    have hb : req.param2 = c.param2 := by rw [← hc]; rfl
    obtain hv | ⟨hv, ht⟩ := hv
    · have hstep : serveStep req (.param2 c.methodId c.param1) =
          (req, some (.store c.value)) := by simp [serveStep, hf, hb, hv]
      rw [hstep]
      exact ⟨rfl, .inl ⟨nofun, hc, hp, rfl⟩⟩
    · have hstep : serveStep req (.param2 c.methodId c.param1) = (req, some .fault) := by
        simp [serveStep, hf, hb, hv]
      rw [hstep]
      exact ⟨rfl, .inl ⟨nofun, hc, hp, ht⟩⟩
  | store r => exact ⟨rfl, .inl ⟨nofun, hc, hp, hs⟩⟩
  | finish => exact ⟨rfl, .inr ⟨rfl, hc, by simp [serveStep], .inr (.inl rfl), hs⟩⟩
  | unlock => exact ⟨rfl, .inl ⟨nofun, hc, hp, hs⟩⟩
  | sleep => exact ⟨rfl, .inl ⟨nofun, hc, hp, hs⟩⟩
  | fault => exact ⟨rfl, .inl ⟨nofun, hc, hp, hs⟩⟩

theorem Answered.serve (h : Answered c req st) :
    (serveStep req st).1 = req ∧ st ≠ .finish ∧
      Answered c req (after (serveStep req st).2) := by
  obtain ⟨hreq, hne, haway⟩ := h.away.serve (.inr h.processed)
  exact ⟨hreq, hne, h.call, h.processed, haway, h.result⟩

/-- The log of the server after a step. -/
def logged (req : RpcRequest) (st : Stage) (served : List Call) : List Call :=
  if st = .finish then served ++ [req.call] else served

theorem InProgress.serve (h : InProgress c req st served calls) :
    (serveStep req st).1.ready = req.ready ∧
      InProgress c (serveStep req st).1 (after (serveStep req st).2) (logged req st served)
        calls := by
  obtain ⟨h, rfl⟩ | ⟨h, rfl⟩ := h
  · obtain ⟨hready, ⟨hne, hpend⟩ | ⟨rfl, hans⟩⟩ := h.serve
    · exact ⟨hready, .inl ⟨hpend, by rw [logged, if_neg hne]⟩⟩
    · exact ⟨hready, .inr ⟨hans, by rw [logged, if_pos rfl, h.call]⟩⟩
  · obtain ⟨hreq, hne, hans⟩ := h.serve
    rw [hreq]
    exact ⟨rfl, .inr ⟨hans, by rw [logged, if_neg hne]⟩⟩

/-- **A step of the server keeps what its client relies on.** -/
theorem Good.serve (h : Good req st served calls pc) :
    Good (serveStep req st).1 (after (serveStep req st).2) (logged req st served) calls pc := by
  have away (ha : Away req st) (hr : req.ready = 0) : (serveStep req st).1 = req ∧
      logged req st served = served ∧ Away req (after (serveStep req st).2) := by
    obtain ⟨hreq, hne, haway⟩ := ha.serve (.inl hr)
    exact ⟨hreq, by rw [logged, if_neg hne], haway⟩
  cases pc with
  | idle =>
    obtain ⟨hreq, hlog, haway⟩ := away h.1 h.2.1
    rw [hreq, hlog]
    exact ⟨haway, h.2⟩
  | store c rest =>
    obtain ⟨data, hrest, hdata, ha, hr, hl⟩ | ⟨hrest, hin⟩ := h
    · obtain ⟨hreq, hlog, haway⟩ := away ha hr
      rw [hreq, hlog]
      exact .inl ⟨data, hrest, hdata, haway, hr, hl⟩
    · obtain ⟨hready, hin⟩ := hin.serve
      exact .inr ⟨hready ▸ hrest, hin⟩
  | poll =>
    obtain ⟨hready, hin⟩ := h.2.serve
    exact ⟨hready ▸ h.1, hin⟩
  | clear | fetch =>
    obtain ⟨hreq, hne, hans⟩ := h.2.1.serve
    rw [hreq, logged, if_neg hne]
    exact ⟨h.1, hans, h.2.2⟩

/-- The server goes to sleep and wakes up without touching a request. -/
theorem Good.between {st' : Stage} (h : Good req st served calls pc)
    (hst : st = .scan ∨ st = .sleep) (hst' : st' = .scan ∨ st' = .sleep) :
    Good req st' served calls pc := by
  have away : Away req st' := by
    obtain rfl | rfl := hst'
    · exact .inl rfl
    · exact .inr (.inr (.inl rfl))
  have pending {c : Call} (h : Pending c req st) : Pending c req st' := by
    refine ⟨h.call, h.processed, ?_⟩
    obtain rfl | rfl := hst <;> obtain rfl | rfl := hst' <;> exact h.serving
  have answered {c : Call} (h : Answered c req st) : Answered c req st' :=
    ⟨h.call, h.processed, away, h.result⟩
  have progress {c : Call} (h : InProgress c req st served calls) :
      InProgress c req st' served calls :=
    h.imp (And.imp_left pending) (And.imp_left answered)
  cases pc with
  | idle => exact ⟨away, h.2⟩
  | store c rest =>
    obtain ⟨data, hrest, hdata, -, hr, hl⟩ | ⟨hrest, hin⟩ := h
    · exact .inl ⟨data, hrest, hdata, away, hr, hl⟩
    · exact .inr ⟨hrest, progress hin⟩
  | poll => exact ⟨h.1, progress h.2⟩
  | clear | fetch => exact ⟨h.1, answered h.2.1, h.2.2⟩

/-! ### A step of the client -/

theorem Away.congr {req' : RpcRequest} (h : Away req st) (hp : req'.processed = req.processed) :
    Away req' st := by
  unfold Away at h ⊢
  rw [hp]
  exact h

theorem RpcRequest.store_comm (req : RpcRequest) (c : Call) (f g : Field) :
    (req.store c f).store c g = (req.store c g).store c f := by
  cases f <;> cases g <;> rfl

theorem RpcRequest.store_store (req : RpcRequest) (c : Call) (f : Field) :
    (req.store c f).store c f = req.store c f := by
  cases f <;> rfl

theorem RpcRequest.store_plain (req : RpcRequest) (c : Call) (hf : f ∈ Field.plain) :
    (req.store c f).ready = req.ready ∧ (req.store c f).processed = req.processed := by
  cases f with
  | processed | ready => simp [Field.plain] at hf
  | _ => exact ⟨rfl, rfl⟩

theorem Storing.store (h : Storing c req (f :: data)) : Storing c (req.store c f) data where
  left _ hg := h.left (.tail f hg)
  done g hg hdata := by
    by_cases hgf : g = f
    · rw [hgf, req.store_store]
    · have hne : g ∉ f :: data := by simp [hgf, hdata]
      rw [req.store_comm, h.done g hg hne]

/-- Once they are all done, the request describes the call. -/
theorem Storing.stored (h : Storing c req []) : req.call = c ∧ req.result = 0 := by
  have field {α : Type} (get : RpcRequest → α) (f : Field) (hf : f ∈ Field.plain) :
      get req = get (req.store c f) := by
    rw [h.done f hf (List.not_mem_nil)]
  have hm := field RpcRequest.methodId .methodId (by decide)
  have h1 := field RpcRequest.param1 .param1 (by decide)
  have h2 := field RpcRequest.param2 .param2 (by decide)
  exact ⟨Call.eq_of hm h1 h2, field RpcRequest.result .result (by decide)⟩

/-- A call starts with its stores. -/
theorem Compiled.Kept.storing (hk : code.Kept) (c : Call) (req : RpcRequest) :
    ∃ data, code.stores = data ++ [.processed, .ready] ∧ Storing c req data := by
  obtain ⟨⟨data, hdata, hstores⟩, -⟩ := hk
  exact ⟨data, hstores, hdata.subset, fun f hf hne => absurd (hdata.mem_iff.mpr hf) hne⟩

theorem InProgress.ready (h : InProgress c req st served calls) :
    InProgress c (req.store c .ready) st served calls := by
  obtain ⟨h, hl⟩ | ⟨h, hl⟩ := h
  · refine .inl ⟨⟨h.call, h.processed, ?_⟩, hl⟩
    have := h.serving
    cases st <;> exact this
  · exact .inr ⟨⟨h.call, h.processed, h.away.congr rfl, h.result⟩, hl⟩

/-- **A step of the client keeps what the server relies on.** -/
theorem Good.call (h : Good req st served calls pc) :
    Good (callStep code req pc).1 st served
      (calls ++ (callStep code req pc).2.2.toList.map Prod.fst) (callStep code req pc).2.1 := by
  cases pc with
  | idle => simpa [callStep, Good] using h
  | store c rest =>
    obtain ⟨data, rfl, hdata, ha, hr, hl⟩ | ⟨⟨rfl, -⟩ | ⟨rfl, hr⟩, hin⟩ := h
    · cases data with
      | nil =>
        -- the server may have read the last call's `ready`: it then starts before `ready` is set
        obtain ⟨hc, h0⟩ := hdata.stored
        refine .inr ⟨.inl ⟨rfl, hr⟩, .inl ⟨⟨hc, rfl, ?_⟩, by simpa [callStep] using hl⟩⟩
        obtain rfl | rfl | rfl | ⟨rfl, -⟩ := ha <;> exact h0
      | cons f data =>
        obtain ⟨hready, hprocessed⟩ := req.store_plain c (hdata.left List.mem_cons_self)
        exact .inl ⟨data, rfl, hdata.store, ha.congr hprocessed, hready.trans hr,
          by simpa [callStep] using hl⟩
    · exact .inr ⟨.inr ⟨rfl, by simp [callStep, RpcRequest.store]⟩,
        by simpa [callStep] using hin.ready⟩
    · exact ⟨hr, by simpa [callStep] using hin⟩
  | poll c =>
    obtain ⟨hr, ⟨h, hl⟩ | ⟨h, hl⟩⟩ := h
    · simp only [callStep, h.processed, if_true]
      exact ⟨hr, .inl ⟨h, by simpa using hl⟩⟩
    · simp only [callStep, h.processed, if_false]
      exact ⟨hr, h, by simpa using hl⟩
  | clear c =>
    obtain ⟨-, h, hl⟩ := h
    exact ⟨rfl, ⟨h.call, h.processed, h.away.congr rfl, h.result⟩, by simpa [callStep] using hl⟩
  | fetch c =>
    obtain ⟨hr, h, hl⟩ := h
    exact ⟨h.away, hr, by simpa [callStep] using hl⟩

/-! ## Whole runs -/

/-- What holds in every state of a run. -/
structure Sound (requestCount : Nat) (s : State) : Prop where
  good : ∀ i, Good (s.requests i) (s.server.stageAt i) (s.served i)
    ((s.returned i).map Prod.fst) (s.clients i)
  lock : s.server.locked = s.server.stage.holds
  bound : s.server.i ≤ requestCount
  between : s.server.i = requestCount → s.server.stage = .scan ∨ s.server.stage = .sleep
  values : ∀ i, ∀ p ∈ s.returned i, p.2 = p.1.value

variable {requestCount : Nat} {s t : State} {a : Action} {as : List Action}

theorem sound_initial (requestCount : Nat) : Sound requestCount .initial where
  good i := by
    have hst : State.initial.server.stageAt i = .scan := by
      unfold Server.stageAt
      split <;> rfl
    rw [hst]
    exact ⟨.inl rfl, rfl, rfl⟩
  lock := rfl
  bound := Nat.zero_le _
  between _ := .inl rfl
  values i p hp := nomatch hp

/-- The server finds the lock free, since no one else takes it. -/
theorem takes_eq {v : Server} (h : v.locked = v.stage.holds) (req : RpcRequest) :
    v.takes = some (after (serveStep req v.stage).2).holds := by
  obtain ⟨i, st, locked⟩ := v
  obtain rfl : locked = st.holds := h
  cases st with
  | scan | processed | check =>
    simp only [Server.takes, serveStep]
    split <;> rfl
  | param2 m a =>
    simp only [Server.takes, serveStep]
    split <;> rfl
  | _ => rfl

/-- The server after a step on request `i`. -/
def Server.next (i : Nat) (stage? : Option Stage) : Server :=
  match stage? with
  | some stage => ⟨i, stage, stage.holds⟩
  | none => ⟨i + 1, .scan, false⟩

theorem Server.next_stageAt (i : Nat) (stage? : Option Stage) (j : Nat) :
    (Server.next i stage?).stageAt j = if j = i then after stage? else .scan := by
  cases stage? with
  | none =>
    simp only [next, stageAt, after, Option.getD_none, ite_self]
    exact ite_self _
  | some st =>
    by_cases h : j = i
    · simp [next, stageAt, after, h]
    · simp [next, stageAt, h, Ne.symm h]

/-- **What a step of the server can be**: the next access to the request it is at, or the way
around the end of the table. -/
theorem Sound.server_cases (hs : Sound requestCount s) (h : s.serverStep requestCount = some t) :
    (s.server.stage ≠ .sleep ∧ s.server.i < requestCount ∧
      t = { s with
        requests := update s.requests s.server.i
          (serveStep (s.requests s.server.i) s.server.stage).1
        server := .next s.server.i (serveStep (s.requests s.server.i) s.server.stage).2
        served := update s.served s.server.i
          (logged (s.requests s.server.i) s.server.stage (s.served s.server.i)) }) ∨
    (s.server.stage = .sleep ∧ t = { s with server := ⟨0, .scan, false⟩ }) ∨
    (s.server.stage = .scan ∧ s.server.i = requestCount ∧
      t = { s with server := ⟨s.server.i, .sleep, false⟩ }) := by
  simp only [State.serverStep] at h
  by_cases hst : s.server.stage = .sleep
  · rw [if_pos hst] at h
    have hl : s.server.locked = false := by rw [hs.lock, hst]; rfl
    rw [hl] at h
    exact .inr (.inl ⟨hst, (Option.some.inj h).symm⟩)
  rw [if_neg hst] at h
  by_cases hi : s.server.i < requestCount
  · refine .inl ⟨hst, hi, ?_⟩
    rw [if_pos hi, takes_eq hs.lock (s.requests s.server.i), Option.map_some] at h
    rw [← Option.some.inj h]
    have hserved : (if s.server.stage = .finish then
        update s.served s.server.i (s.served s.server.i ++ [(s.requests s.server.i).call])
        else s.served) = update s.served s.server.i
          (logged (s.requests s.server.i) s.server.stage (s.served s.server.i)) := by
      unfold logged
      split
      · rfl
      · exact (update_eq_self _ _).symm
    rw [hserved]
    congr 1
    cases (serveStep (s.requests s.server.i) s.server.stage).2 <;> rfl
  · rw [if_neg hi] at h
    have hi : s.server.i = requestCount := Nat.le_antisymm hs.bound (Nat.le_of_not_lt hi)
    have hscan : s.server.stage = .scan := (hs.between hi).resolve_right hst
    have hl : s.server.locked = false := by rw [hs.lock, hscan]; rfl
    rw [hl] at h
    exact .inr (.inr ⟨hscan, hi, (Option.some.inj h).symm⟩)

theorem Sound.server_step (hs : Sound requestCount s) (h : s.serverStep requestCount = some t) :
    Sound requestCount t := by
  obtain ⟨hst, hi, rfl⟩ | ⟨hst, rfl⟩ | ⟨hst, hi, rfl⟩ := hs.server_cases h
  · refine ⟨fun j => ?_, ?_, ?_, ?_, hs.values⟩
    · simp only [Server.next_stageAt]
      by_cases hj : j = s.server.i
      · subst hj
        have hg := hs.good s.server.i
        simp only [Server.stageAt, if_true] at hg
        simpa using hg.serve
      · have hg := hs.good j
        simp only [Server.stageAt, Ne.symm hj, if_false] at hg
        simpa [hj] using hg
    · cases (serveStep (s.requests s.server.i) s.server.stage).2 <;> rfl
    · cases (serveStep (s.requests s.server.i) s.server.stage).2 with
      | none => exact hi
      | some st => exact Nat.le_of_lt hi
    · intro h
      cases hn : (serveStep (s.requests s.server.i) s.server.stage).2 with
      | none => exact .inl rfl
      | some st =>
        simp only [hn, Server.next] at h
        omega
  · refine ⟨fun j => ?_, rfl, Nat.zero_le _, fun _ => .inl rfl, hs.values⟩
    apply (hs.good j).between
    · unfold Server.stageAt
      split
      · exact .inr hst
      · exact .inl rfl
    · unfold Server.stageAt
      split <;> exact .inl rfl
  · refine ⟨fun j => ?_, rfl, hs.bound, fun _ => .inr rfl, hs.values⟩
    apply (hs.good j).between
    · unfold Server.stageAt
      split
      · exact .inl hst
      · exact .inl rfl
    · unfold Server.stageAt
      split
      · exact .inr rfl
      · exact .inl rfl

/-- What `rpc_call` returns is the answer of its call. -/
theorem Good.value (hk : code.Kept) (h : Good req st served calls pc) :
    ∀ p ∈ (callStep code req pc).2.2, p.2 = p.1.value := by
  cases pc with
  | fetch c =>
    intro p hp
    cases hp
    simp only [hk.2, Bool.false_eq_true, if_false]
    exact h.2.1.result
  | store c rest => cases rest <;> exact fun p hp => nomatch hp
  | _ => exact fun p hp => nomatch hp

theorem Sound.client_step (hk : code.Kept) (hs : Sound requestCount s) (i : Nat) :
    Sound requestCount (s.clientStep code i) := by
  refine ⟨fun j => ?_, hs.lock, hs.bound, hs.between, fun j p hp => ?_⟩
  · by_cases hj : j = i
    · subst hj
      simpa [State.clientStep] using (hs.good j).call
    · simpa [State.clientStep, hj] using hs.good j
  · by_cases hj : j = i
    · subst hj
      simp only [State.clientStep, update_self, List.mem_append, Option.mem_toList] at hp
      obtain hp | hp := hp
      · exact hs.values j p hp
      · exact (hs.good j).value hk p hp
    · simp only [State.clientStep, update_of_ne hj] at hp
      exact hs.values j p hp

/-- A step is an action of a process that lives. -/
theorem State.step_eq_some : s.step code requestCount a = some t ↔
    s.server.stage ≠ .fault ∧ s.act code requestCount a = some t := by
  unfold State.step
  split
  · rename_i hf
    exact ⟨nofun, fun h => absurd hf h.1⟩
  · rename_i hf
    exact ⟨fun h => ⟨hf, h⟩, And.right⟩

/-- **Every step keeps the invariant.** -/
theorem Sound.step (hk : code.Kept) (hs : Sound requestCount s)
    (h : s.step code requestCount a = some t) : Sound requestCount t := by
  obtain ⟨-, h⟩ := State.step_eq_some.mp h
  cases a with
  | server => exact hs.server_step h
  | client i =>
    obtain rfl := Option.some.inj h
    exact hs.client_step hk i
  | call i c =>
    simp only [State.act] at h
    split at h
    · rename_i hidle
      obtain rfl := Option.some.inj h
      refine ⟨fun j => ?_, hs.lock, hs.bound, hs.between, hs.values⟩
      by_cases hj : j = i
      · subst hj
        have hg := hs.good j
        rw [hidle] at hg
        obtain ⟨data, hstores, hdata⟩ := hk.storing c (s.requests j)
        simp only [update_self]
        exact .inl ⟨data, hstores, hdata, hg⟩
      · simpa [hj] using hs.good j
    · cases h

theorem sound_run (hk : code.Kept)
    (h : as.foldlM (State.step code requestCount) .initial = some s) : Sound requestCount s :=
  Progress.invariant_foldlM (fun _ _ _ => Sound.step hk) (sound_initial requestCount) h

/-- **No call ever returns anything but its own answer**, however the server and the clients
interleave. -/
theorem returned_value (hk : code.Kept)
    (h : as.foldlM (State.step code requestCount) .initial = some s) {i : Nat} {v : Int32}
    (hv : (c, v) ∈ s.returned i) : v = c.value :=
  (sound_run hk h).values i (c, v) hv

/-- **Only a division that traps ends the process.** -/
theorem fault_traps (hk : code.Kept)
    (h : as.foldlM (State.step code requestCount) .initial = some s)
    (hf : s.server.stage = .fault) : (s.requests s.server.i).call.Traps := by
  have hg := (sound_run hk h).good s.server.i
  rw [Server.stageAt, if_pos rfl, hf] at hg
  have away : ¬ Away (s.requests s.server.i) .fault := by simp [Away]
  have progress {c : Call} {served calls : List Call}
      (h : InProgress c (s.requests s.server.i) .fault served calls) :
      (s.requests s.server.i).call.Traps := by
    obtain ⟨h, -⟩ | ⟨h, -⟩ := h
    · exact h.call ▸ h.serving
    · exact absurd h.away away
  cases hpc : s.clients s.server.i with
  | idle =>
    rw [hpc] at hg
    exact absurd hg.1 away
  | store c rest =>
    rw [hpc] at hg
    obtain ⟨-, -, -, ha, -⟩ | ⟨-, hin⟩ := hg
    · exact absurd ha away
    · exact progress hin
  | poll c =>
    rw [hpc] at hg
    exact progress hg.2
  | clear c | fetch c =>
    rw [hpc] at hg
    exact absurd hg.2.1.away away

/-- The code as it is written. -/
theorem kept_source : Compiled.source.Kept :=
  ⟨⟨Field.plain, .rfl, rfl⟩, rfl⟩

/-- 100 / 4, answered while the client polls. -/
def divRun : List Action :=
  .call 0 ⟨3, 100, 4⟩ :: (List.replicate 7 (.client 0) ++ List.replicate 9 .server ++
    List.replicate 3 (.client 0))

theorem returned_value_div : ∃ s : State,
    divRun.foldlM (State.step .source 10) .initial = some s ∧ (⟨3, 100, 4⟩, 25) ∈ s.returned 0 ∧
      25 = (Call.mk 3 100 4).value := by
  have h : (divRun.foldlM (State.step .source 10) .initial).map (·.returned 0) =
      some [(⟨3, 100, 4⟩, 25)] := by
    decide +kernel
  obtain ⟨s, hs, hr⟩ := Option.map_eq_some_iff.mp h
  have hmem : (⟨3, 100, 4⟩, 25) ∈ s.returned 0 := by simp [hr]
  exact ⟨s, hs, hmem, returned_value kept_source hs hmem⟩

/-- With `ready` stored before the arguments, the server can answer another call: 10 + 5 gets 0. -/
theorem moved_stores : ∃ (as : List Action) (s : State),
    as.foldlM (State.step ⟨[.processed, .ready, .methodId, .param1, .param2, .result], false⟩ 1)
      .initial = some s ∧ (⟨0, 10, 5⟩, 0) ∈ s.returned 0 := by
  have h : ((.call 0 ⟨0, 10, 5⟩ :: (List.replicate 2 (.client 0) ++ List.replicate 9 .server ++
      List.replicate 8 (.client 0))).foldlM (State.step
      ⟨[.processed, .ready, .methodId, .param1, .param2, .result], false⟩ 1) .initial).map
      (·.returned 0) = some [(⟨0, 10, 5⟩, 0)] := by
    decide +kernel
  obtain ⟨s, hs, hr⟩ := Option.map_eq_some_iff.mp h
  exact ⟨_, s, hs, by simp [hr]⟩

/-- With the load of `result` replaced by the 0 stored before, 10 + 5 gets 0. -/
theorem folded_load : ∃ (as : List Action) (s : State),
    as.foldlM (State.step ⟨Field.all, true⟩ 1) .initial = some s ∧
      (⟨0, 10, 5⟩, 0) ∈ s.returned 0 := by
  have h : ((.call 0 ⟨0, 10, 5⟩ :: (List.replicate 7 (.client 0) ++ List.replicate 9 .server ++
      List.replicate 3 (.client 0))).foldlM (State.step ⟨Field.all, true⟩ 1) .initial).map
      (·.returned 0) = some [(⟨0, 10, 5⟩, 0)] := by
    decide +kernel
  obtain ⟨s, hs, hr⟩ := Option.map_eq_some_iff.mp h
  exact ⟨_, s, hs, by simp [hr]⟩

/-- The call in progress, once `processed` is cleared for it. -/
def ClientPc.call? : ClientPc → Option Call
  | .store c rest => if .processed ∈ rest then none else some c
  | .poll c | .clear c | .fetch c => some c
  | .idle => none

/-- **Every call is processed once, in the order of the calls**: on each request the server has
processed the calls that have returned, and perhaps the one in progress. -/
theorem served_once (hk : code.Kept)
    (h : as.foldlM (State.step code requestCount) .initial = some s) (i : Nat) :
    s.served i = (s.returned i).map Prod.fst ∨
      ∃ c, (s.clients i).call? = some c ∧
        s.served i = (s.returned i).map Prod.fst ++ [c] := by
  have hg := (sound_run hk h).good i
  cases hpc : s.clients i with
  | idle =>
    rw [hpc] at hg
    exact .inl hg.2.2
  | store c rest =>
    rw [hpc] at hg
    obtain ⟨-, -, -, -, -, hl⟩ | ⟨hrest, ⟨-, hl⟩ | ⟨-, hl⟩⟩ := hg
    · exact .inl hl
    · exact .inl hl
    · refine .inr ⟨c, ?_, hl⟩
      obtain ⟨rfl, -⟩ | ⟨rfl, -⟩ := hrest <;> simp [ClientPc.call?]
  | poll =>
    rw [hpc] at hg
    obtain ⟨-, hl⟩ | ⟨-, hl⟩ := hg.2
    · exact .inl hl
    · exact .inr ⟨_, rfl, hl⟩
  | clear | fetch =>
    rw [hpc] at hg
    exact .inr ⟨_, rfl, hg.2.2⟩

/-- A call of an unknown method, processed and not yet returned. -/
def unknownRun : List Action :=
  .call 0 ⟨9, 1, 1⟩ :: (List.replicate 7 (.client 0) ++ List.replicate 6 .server ++
    List.replicate 2 (.client 0))

theorem served_once_unknown : ∃ s : State,
    unknownRun.foldlM (State.step .source 10) .initial = some s ∧
      (s.served 0 = (s.returned 0).map Prod.fst ∨ ∃ c, (s.clients 0).call? = some c ∧
        s.served 0 = (s.returned 0).map Prod.fst ++ [c]) := by
  have hrun : unknownRun.foldlM (State.step .source 10) .initial = some _ := rfl
  exact ⟨_, hrun, served_once kept_source hrun 0⟩

end OSCompas.Rpc
