import Smalltable.Lib.Bytes

/-!
# Sizes, opcodes and status codes (`constants.h`, `framing.h`)
-/

namespace Smalltable.Ref

def memcacheHeaderSize : Nat := 24
def maxExtrasSize : Nat := 256
def maxKeySize : Nat := 256
def maxValueSize : Nat := 4 * 1024 * 1024 + 128
def maxRequestSize : Nat :=
  memcacheHeaderSize + maxExtrasSize + maxKeySize + maxValueSize + 32

/-- Max number of requests per one bulk that is forwarded to lower levels. -/
def maxQuietRequests : Nat := maxRequestSize / memcacheHeaderSize + 1

theorem memcacheHeaderSize_eq : memcacheHeaderSize = 24 := rfl
theorem maxKeySize_eq : maxKeySize = 256 := rfl
theorem maxValueSize_eq : maxValueSize = 4194432 := rfl
theorem maxRequestSize_eq : maxRequestSize = 4195000 := rfl
theorem maxQuietRequests_eq : maxQuietRequests = 174792 := rfl

def memcacheCmdGet : UInt8 := 0x00
def memcacheCmdSet : UInt8 := 0x01
def memcacheCmdAdd : UInt8 := 0x02
def memcacheCmdReplace : UInt8 := 0x03
def memcacheCmdDelete : UInt8 := 0x04
def memcacheCmdNoop : UInt8 := 0x0A
def memcacheCmdVersion : UInt8 := 0x0B

def memcacheXcmdCodeLoad : UInt8 := 0x70
def memcacheXcmdCodeUnload : UInt8 := 0x71
def memcacheXcmdCodeCheck : UInt8 := 0x72
def memcacheXcmdGetKeys : UInt8 := 0x73

def proxyCmdGetConfig : UInt8 := 0x01
def proxyCmdSetConfig : UInt8 := 0x02
def proxyCmdStop : UInt8 := 0x03
def proxyCmdStart : UInt8 := 0x04

def memcacheStatusOk : Nat := 0x0000
def memcacheStatusKeyNotFound : Nat := 0x0001
def memcacheStatusKeyExists : Nat := 0x0002
def memcacheStatusValueTooBig : Nat := 0x0003
def memcacheStatusInvalidArguments : Nat := 0x0004
def memcacheStatusItemNotStored : Nat := 0x0005
def memcacheStatusUnknownCommand : Nat := 0x0081
def memcacheStatusInternalError : Nat := 0x0082
def memcacheStatusConnectionBroken : Nat := 0x0083

/-- `MEMCACHE_RESERVED_FLAG_QUIET` is bit 0 of the reserved field. -/
def flagQuiet (reserved : Nat) : Bool := reserved.testBit 0

/-- `MEMCACHE_RESERVED_FLAG_PROXY_COMMAND` is bit 1. -/
def flagProxyCommand (reserved : Nat) : Bool := reserved.testBit 1

end Smalltable.Ref
