import Smalltable.Ref.Process

/-!
# The builtin commands (`sys_commands.c`, `code_commands.c`)

A handler gets the request and a response whose `buf` is the room behind the
header, and leaves in it what `pack_response` will send. All of them first
check which of extras, key and value the command may have.

`cmd_set` serves SET, ADD and REPLACE. It draws the new CAS value before it
knows whether it will store anything, and reads the current item only when the
request asks something of it.
-/

namespace Smalltable.Ref

section Handlers

variable {σ γ : Type} (api : StStorageApi σ) (vx : Vx γ) (cfg : Config γ)

/-- What a handler works on: world, connection and response. -/
abbrev Reply (σ γ : Type) := World σ γ × Io × StRes

/-- Answer with an error and leave everything else as it is. -/
def refuse (w : World σ γ) (io : Io) (res : StRes) (status : Nat)
    (errStr : Option Bytes := none) : Option (Reply σ γ) :=
  match setErrorCode res status errStr with
  | none => none
  | some res => some (w, io, res)

def cmdUnknown (w : World σ γ) (io : Io) (_ : StReq) (res : StRes) :
    Option (Reply σ γ) :=
  refuse w io res memcacheStatusUnknownCommand

def cmdGet (w : World σ γ) (io : Io) (req : StReq) (res : StRes) : Option (Reply σ γ) :=
  if req.extras ≠ [] ∨ req.key = [] ∨ req.value ≠ [] then
    refuse w io res memcacheStatusInvalidArguments
  else
    let res := { res with extras := some 0, value := some 4 }
    match storageGet api w.store (res.bufSz - 4) req.key with
    | none => none
    | some none => refuse w io res memcacheStatusKeyNotFound
    | some (some (item, md)) =>
        let mem := poke (poke res.mem 4 item) 0 (leBytes 4 (htonl md.flags))
        some (w, io, { res with
          mem := mem
          extrasSz := 4
          status := memcacheStatusOk
          valueSz := item.length - sizeofMcMetadata
          cas := md.cas })

/-- `++unique_number || ++unique_number`: the counter after it, and the value
of the expression, which as a logical or is 0 or 1. -/
def nextCas (u : Nat) : Nat × Nat :=
  let u := (u + 1) % 2 ^ 64
  if u ≠ 0 then (u, 1)
  else
    let u := (u + 1) % 2 ^ 64
    (u, if u ≠ 0 then 1 else 0)

/-- Why `cmd_set` refuses a request, given the item that is there. -/
def storeRefusal (req : StReq) (current : Option McMetadata) : Option Nat :=
  if req.cas ≠ 0 ∧ current = none then some memcacheStatusKeyNotFound
  else if req.cas ≠ 0 ∧ current.any (fun md => md.cas ≠ req.cas) then
    some memcacheStatusItemNotStored
  else if req.opcode = memcacheCmdAdd ∧ current ≠ none then some memcacheStatusKeyExists
  else if req.opcode = memcacheCmdReplace ∧ current = none then
    some memcacheStatusKeyNotFound
  else none

/-- The current item's metadata, read only if the tests need it; a plain SET
goes on as if one were there. -/
def currentItem (w : World σ γ) (req : StReq) (res : StRes) :
    Option (Option McMetadata × Bytes) :=
  if req.cas ≠ 0 ∨ req.opcode ≠ memcacheCmdSet then
    match storageGet api w.store res.bufSz req.key with
    | none => none
    | some none => some (none, res.mem)
    | some (some (item, md)) => some (some md, poke res.mem 0 item)
  else some (some ⟨0, 0, 0⟩, res.mem)

def cmdSet (w : World σ γ) (io : Io) (req : StReq) (res : StRes) : Option (Reply σ γ) :=
  if req.extras.length ≠ 8 ∨ req.key = [] then
    refuse w io res memcacheStatusInvalidArguments
  else
    let drawn := nextCas w.uniqueNumber
    let w := { w with uniqueNumber := drawn.1 }
    let md : McMetadata :=
      { flags := ntohl (leVal (slice req.extras 0 4))
        expiration := ntohl (leVal (slice req.extras 4 4))
        cas := drawn.2 }
    match currentItem api w req res with
    | none => none
    | some (current, mem) =>
        let res := { res with mem := mem }
        match storeRefusal req current with
        | some status => refuse w io res status
        | none =>
            let r := storageSet api w.store md req.value req.key
            let w := { w with store := r.1 }
            if r.2 < 0 then refuse w io res memcacheStatusItemNotStored
            else some (w, io, { res with cas := md.cas, status := memcacheStatusOk })

def cmdDelete (w : World σ γ) (io : Io) (req : StReq) (res : StRes) : Option (Reply σ γ) :=
  if req.extras ≠ [] ∨ req.key = [] ∨ req.value ≠ [] then
    refuse w io res memcacheStatusInvalidArguments
  else
    let r := storageDelete api w.store req.key
    let w := { w with store := r.1 }
    if r.2 < 0 then refuse w io res memcacheStatusKeyNotFound
    else some (w, io, { res with status := memcacheStatusOk })

def cmdNoop (w : World σ γ) (io : Io) (req : StReq) (res : StRes) : Option (Reply σ γ) :=
  if req.extras ≠ [] ∨ req.key ≠ [] ∨ req.value ≠ [] then
    refuse w io res memcacheStatusInvalidArguments
  else some (w, io, { res with status := memcacheStatusOk })

/-- `VERSION_STRING` -/
def versionString : Bytes := ascii "smalltable-0.0.1"

def cmdVersion (w : World σ γ) (io : Io) (req : StReq) (res : StRes) :
    Option (Reply σ γ) :=
  if req.extras ≠ [] ∨ req.key ≠ [] ∨ req.value ≠ [] then
    refuse w io res memcacheStatusInvalidArguments
  else
    some (w, io, { res with
      value := some 0
      valueSz := versionString.length
      mem := poke res.mem 0 (versionString.take (res.bufSz - 1).toNat)
      status := memcacheStatusOk })

def cmdGetKeys (w : World σ γ) (io : Io) (req : StReq) (res : StRes) :
    Option (Reply σ γ) :=
  if req.extras ≠ [] ∨ req.value ≠ [] then
    refuse w io res memcacheStatusInvalidArguments
  else
    match storageGetKeys api w.store res.bufSz req.key with
    | none => refuse w io res memcacheStatusInternalError (some (ascii "Command not supported"))
    | some listing =>
        some (w, io, { res with
          value := some 0
          valueSz := listing.length
          mem := poke res.mem 0 listing
          status := memcacheStatusOk })

/-! ## Loading and unloading code -/

/-- The name of a source file or program, from the escaped and shortened key. -/
def pluginFile (key : Bytes) (suffix : String) : Bytes :=
  let prefix31 := (keyEscape 32 key).take (min key.length 31)
  snprintf 1024 (cfg.tmpdir ++ ascii "/plugin-" ++ prefix31 ++ ascii suffix)

/-- `process_compile`: the result of the command, and the text it leaves. -/
def processCompile (cFile elfFile source : Bytes) (dstSz : Int) : Int × Bytes :=
  let logFile := snprintf 1024 (elfFile ++ ascii ".log")
  let cmd := snprintf 1024 (cfg.gccCommand elfFile cFile logFile)
  let r := cfg.system cmd source
  let text := cmd ++ [0x0A, 0x0A]
  (r.1, text ++ (r.2.getD []).take (dstSz - text.length).toNat)

/-- The answer of `cmd_code_load` once the compiler has run. -/
def codeLoadAnswer (res : StRes) (text : Bytes) (status : Nat) : StRes :=
  { res with
    value := some 0
    valueSz := text.length
    mem := poke res.mem 0 text
    status := status }

def commandDisabled : Bytes := ascii "Command disabled by configuration"

def cmdCodeLoad (w : World σ γ) (io : Io) (req : StReq) (res : StRes) :
    Option (Reply σ γ) :=
  if req.extras ≠ [] ∨ req.key = [] ∨ req.value = [] then
    refuse w io res memcacheStatusInvalidArguments
  else if cfg.vx32Disabled then
    refuse w io res memcacheStatusUnknownCommand (some commandDisabled)
  else
    match w.findProcess req.key with
    | none => none
    | some (some _) => refuse w io res memcacheStatusKeyExists
    | some none =>
        let cFile := pluginFile cfg req.key ".c"
        let elfFile := pluginFile cfg req.key ".elf"
        match cfg.writeFile cFile req.value with
        | some err =>
            let text := ascii "Error while saving file: " ++ err
            some (w, io, codeLoadAnswer res text memcacheStatusItemNotStored)
        | none =>
            let compiled := processCompile cfg cFile elfFile req.value res.bufSz
            if compiled.1 ≠ 0 then
              some (w, io, codeLoadAnswer res compiled.2 memcacheStatusItemNotStored)
            else
              -- no more than 4k logs
              let log := compiled.2.take 4096 ++ [0x0A, 0x0A]
              let pid := w.nextProc
              let w := w.processNew req.key
              match cfg.loadElf elfFile req.value with
              | none =>
                  let text := log ++ ascii "Error while loading the binary"
                  some (w.processFree pid, io,
                    codeLoadAnswer res text memcacheStatusItemNotStored)
              | some g =>
                  let w := w.setProc pid (some { key := req.key, machine := some g })
                  match processRun api vx (cfg.syscallLimit * io.requests + 128) pid w io with
                  | none => none
                  | some (w, io, r) =>
                      if r ≠ 0 then
                        let text := log ++ ascii "Error while running the binary"
                        some (w.processFree pid, io,
                          codeLoadAnswer res text memcacheStatusItemNotStored)
                      else some (w, io, codeLoadAnswer res log memcacheStatusOk)

def cmdCodeUnload (w : World σ γ) (io : Io) (req : StReq) (res : StRes) :
    Option (Reply σ γ) :=
  if req.extras ≠ [] ∨ req.key = [] ∨ req.value ≠ [] then
    refuse w io res memcacheStatusInvalidArguments
  else if cfg.vx32Disabled then
    refuse w io res memcacheStatusUnknownCommand (some commandDisabled)
  else
    match w.findProcess req.key with
    | none => none
    | some none => refuse w io res memcacheStatusKeyNotFound
    | some (some pid) =>
        some (w.processFree pid, io, { res with status := memcacheStatusOk })

def cmdCodeCheck (w : World σ γ) (io : Io) (req : StReq) (res : StRes) :
    Option (Reply σ γ) :=
  if req.extras ≠ [] ∨ req.key = [] ∨ req.value ≠ [] then
    refuse w io res memcacheStatusInvalidArguments
  else if cfg.vx32Disabled then
    refuse w io res memcacheStatusUnknownCommand (some commandDisabled)
  else
    match w.findProcess req.key with
    | none => none
    | some none => refuse w io res memcacheStatusKeyNotFound
    | some (some _) => refuse w io res memcacheStatusKeyExists

/-! ## Dispatch of one builtin group -/

/-- The call through `cmd_ptr`. A process pointer never reaches it. -/
def callBuiltin (ptr : CmdPtr) (w : World σ γ) (io : Io) (req : StReq) (res : StRes) :
    Option (Reply σ γ) :=
  match ptr with
  | .null => cmdUnknown w io req res
  | .builtin .get => cmdGet api w io req res
  | .builtin .set => cmdSet api w io req res
  | .builtin .delete => cmdDelete api w io req res
  | .builtin .noop => cmdNoop w io req res
  | .builtin .version => cmdVersion w io req res
  | .builtin .getKeys => cmdGetKeys api w io req res
  | .builtin .codeLoad => cmdCodeLoad api vx cfg w io req res
  | .builtin .codeUnload => cmdCodeUnload cfg w io req res
  | .builtin .codeCheck => cmdCodeCheck cfg w io req res
  | .process _ => none

/-- `process_single`: the bytes put at the writer of the send buffer. -/
def processSingle (ptr : CmdPtr) (w : World σ γ) (io : Io) (request : Bytes)
    (resBufSz : Int) : Option (World σ γ × Io × Bytes) :=
  let req := unpackRequest request
  match callBuiltin api vx cfg ptr w io req (prepareRes resBufSz request) with
  | none => none
  | some (w, io, res) =>
      match packResponse resBufSz res with
      | none => none
      | some produced => some (w, io, produced)

/-- The body of the loop of `builtin_commands_callback`. -/
def builtinCommand (ptr : CmdPtr) (w : World σ γ) (io : Io) (request : Bytes) :
    Option (World σ γ × Io) :=
  let wr := bufGetWriter io.pool io.sendBuf (maxRequestSize + sizeofMcMetadata)
  let io := { io with pool := wr.1, sendBuf := wr.2.1 }
  if bufGetUsed io.sendBuf < maxRequestSize * 3 then
    match processSingle api vx cfg ptr w io request wr.2.2 with
    | none => none
    | some (w, io, produced) => some (w, { io with sendBuf := bufProduce io.sendBuf produced })
  else
    match errorFromReqbuf request wr.2.2 memcacheStatusInternalError none with
    | none => none
    | some produced => some (w, { io with sendBuf := bufProduce io.sendBuf produced })

def builtinCommandsCallback (ptr : CmdPtr) (w : World σ γ) (io : Io) (reqBuf : Bytes) :
    Option (World σ γ × Io) :=
  forRequests reqBuf (w, io) fun (w, io) request =>
    (builtinCommand api vx cfg ptr w io request).map .yield

end Handlers

end Smalltable.Ref
