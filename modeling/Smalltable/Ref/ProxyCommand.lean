import Smalltable.Ref.ProxySysCommand

/-!
# Dispatching a batch in the proxy (`proxy_command.c`)

A batch is spread over the servers its keys belong to and the answers are put
together again. Requests are first copied to the `send_buf` of their servers,
each of which also gets a NOOP so that it has something to answer at the end.
`order` remembers where each answer will come from. Then all servers are served
at once, the answers to the NOOPs are dropped, and the others are collected in
the order of the requests.

What the network does while the servers are served is a list of events, each
with the index of the server it is for. The list has to see every chain to its
end, else the function does not return.
-/

namespace Smalltable.Ref

/-- `noop`, the request `process_multi` appends to what it forwards to a server;
`noop_sz` is 24. -/
def noop : Bytes :=
  [0x80, 0x0A, 0, 0, 0, 0, 0, 0, 0, 0, 0, 0, 0, 0, 0xDE, 0xAD, 0, 0, 0, 0, 0, 0, 0, 0]

namespace Proxy

/-- `NELEM(servers)` -/
def nelemServers : Nat := 8

def doInProxy (request : Bytes) : Bool :=
  mcGetOpcode request = memcacheCmdNoop ∨ flagProxyCommand (mcGetReserved request)

/-- State of the loop over the requests. `order` has an entry for each request
counted, `none` for the proxy's own. -/
structure Collect where
  pool : Pool
  world : ProxyWorld
  servers : List Nat := []
  order : List (Option Nat) := []
  consumed : Int := 0

section Dispatch

variable (env : ProxyEnv) (conn : Nat)

/-- The end of the loop body: the request is consumed. -/
def advance (c : Collect) (request : Bytes) (src : Option Nat) : ForInStep Collect :=
  let c := { c with order := c.order ++ [src], consumed := c.consumed + request.length }
  -- can't risk more - too many requests
  if c.order.length = maxQuietRequests then .done c else .yield c

def collectStep (c : Collect) (request : Bytes) : Option (ForInStep Collect) :=
  if doInProxy request then
    match processSingle env conn c.pool c.world request with
    | none => none
    | some (p, w) => some (advance { c with pool := p, world := w } request none)
  else
    match findStServer c.world.servers (reqbufGetKey request) with
    | none => none
    | some srv =>
        match c.world.backends srv.ptr with
        | none => none
        | some b =>
            let wr := bufGetWriter c.pool b.sendBuf request.length
            let c := { c with
              pool := wr.1
              world := c.world.setBackend srv.ptr (some { b with
                sendBuf := bufProduce wr.2.1 request
                requests := b.requests + 1 })
              servers := if 0 = b.requests then c.servers ++ [srv.ptr] else c.servers }
            -- can't risk more - too many servers
            if c.servers.length = nelemServers then some (.done c)
            else some (advance c request (some srv.ptr))

/-- The first loop of `process_multi`. -/
def collect (p : Pool) (w : ProxyWorld) (reqBuf : Bytes) : Option Collect :=
  forRequests reqBuf { pool := p, world := w } (collectStep env conn)

/-- A NOOP for each of the servers. -/
def appendNoops : List Nat → Pool → ProxyWorld → Option (Pool × ProxyWorld)
  | [], p, w => some (p, w)
  | ptr :: rest, p, w =>
      match w.backends ptr with
      | none => none
      | some b =>
          let wr := bufGetWriter p b.sendBuf noop.length
          appendNoops rest wr.1 (w.setBackend ptr (some { b with
            sendBuf := bufProduce wr.2.1 noop, requests := b.requests + 1 }))

/-- One server's part in what the network does. -/
structure NetEvent where
  server : Nat
  action : ClientAction

/-- The loop of `process_memcache`, over the exchange of each server. -/
def serveEvents (p : Pool) (xs : Nat → Option Exchange) :
    List NetEvent → Option (Pool × (Nat → Option Exchange))
  | [] => some (p, xs)
  | e :: rest =>
      match xs e.server with
      | none => none
      | some x =>
          match clientStep p x e.action with
          | none => none
          | some (p, x) => serveEvents p (fun i => if i = e.server then some x else xs i) rest

/-- The exchanges `process_memcache` starts. -/
def startExchanges (servers : List Nat) (w : ProxyWorld) : Nat → Option Exchange := fun ptr =>
  if ptr ∈ servers then (w.backends ptr).map fun b => { srv := b } else none

/-- It returns when no descriptor is waited for any more. -/
def processMemcache (net : List NetEvent) (servers : List Nat) (p : Pool) (w : ProxyWorld) :
    Option (Pool × ProxyWorld) :=
  match serveEvents p (startExchanges servers w) net with
  | none => none
  | some (p, xs) =>
      if servers.all fun ptr => (xs ptr).any (·.pc = .done) then
        some (p, { w with backends := fun ptr => ((xs ptr).map (·.srv)).or (w.backends ptr) })
      else none

/-- Pop responses to noops. -/
def popNoops : List Nat → ProxyWorld → Option ProxyWorld
  | [], w => some w
  | ptr :: rest, w =>
      match w.backends ptr with
      | none => none
      | some b =>
          popNoops rest (w.setBackend ptr (some { b with
            recvBuf := bufRollbackProduced b.recvBuf noop.length }))

/-- The buffer an answer comes from, and the world with it replaced. -/
def srcBuf (w : ProxyWorld) : Option Nat → Option Buffer
  | none => some w.resBuf
  | some ptr => (w.backends ptr).map (·.recvBuf)

def setSrcBuf (w : ProxyWorld) (b : Buffer) : Option Nat → ProxyWorld
  | none => { w with resBuf := b }
  | some ptr => w.setBackend ptr ((w.backends ptr).map fun srv => { srv with recvBuf := b })

/-- The last loop. A response that is not there in whole is read beyond the end
of its buffer. -/
def deliver : List (Option Nat) → ProxyWorld → Io → Option (ProxyWorld × Io)
  | [], w, io => some (w, io)
  | src :: rest, w, io =>
      match srcBuf w src with
      | none => none
      | some b =>
          let buf := bufGetReader b
          let responseSz := mcGetRequestSz buf
          if memcacheHeaderSize ≤ buf.length ∧ 0 ≤ responseSz ∧ responseSz ≤ buf.length then
            let wr := bufGetWriter io.pool io.sendBuf responseSz
            let sb := bufConsume wr.1 b responseSz
            deliver rest (setSrcBuf w sb.2 src) { io with
              pool := sb.1
              sendBuf := bufProduce wr.2.1 (buf.take responseSz.toNat) }
          else none

/-- The servers are only asked when there are any. -/
def askServers (net : List NetEvent) (c : Collect) : Option (Pool × ProxyWorld) :=
  if c.servers.length = 0 then some (c.pool, c.world)
  else
    match appendNoops c.servers c.pool c.world with
    | none => none
    | some (p, w) =>
        match processMemcache net c.servers p w with
        | none => none
        | some (p, w) => (popNoops c.servers w).map fun w => (p, w)

/-- `process_multi`; the last component is the number of consumed bytes. -/
def processMulti (net : List NetEvent) (w : ProxyWorld) (io : Io) (reqBuf : Bytes) :
    Option (ProxyWorld × Io × Int) :=
  match collect env io.conn io.pool w reqBuf with
  | none => none
  | some c =>
      match askServers net c with
      | none => none
      | some (p, w) =>
          match deliver c.order w { io with pool := p } with
          | none => none
          | some (w, io) => some (w, io, c.consumed)

end Dispatch

end Proxy

end Smalltable.Ref
