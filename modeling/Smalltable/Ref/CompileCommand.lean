import Smalltable.Lib.ShellWords
import Smalltable.Ref.SysCommands

/-!
# The compiler command (`main.c`, `code_commands.c`)

`process_compile` makes a command with `snprintf` and gives it to `system`. The
format string is a part of the configuration, and so is the path of the SDK, which
is the first argument; the others are the names of program, source and log.
-/

namespace Smalltable.Ref

/-- The strings as `flatten_argv` joins them. -/
def defaultVx32sdkGccCommand : Bytes :=
  (ascii " ").intercalate
    [ascii "export LC_ALL=C; P=%s; gcc -m32 -Wall -O2 -g",
     ascii " -Wl,-melf_i386,-Telf_i386_0x00048000.x",
     ascii " -mno-tls-direct-seg-refs -fno-stack-protector",
     ascii " -nostdlib -mfp-ret-in-387 $P/crt0.o -o %s %s",
     ascii " -I$P/include -L$P -lst -lc -lgcc >%s 2>&1"]

/-- A format string with a hole for each `%s`, from argument number `n` on. There is
no argument for another conversion. -/
def formatParts : Nat → Bytes → Option (List (Shell.Sym Nat))
  | _, [] => some []
  | n, 0x25 :: 0x73 :: rest => (formatParts (n + 1) rest).map (.hole n :: ·)
  | n, 0x25 :: 0x25 :: rest => (formatParts n rest).map (.chr 0x25 :: ·)
  | n, c :: rest => if c = 0x25 then none else (formatParts n rest).map (.chr c :: ·)

def compileArgs (vx32sdkPath elfFile cFile logFile : Bytes) : List Bytes :=
  [vx32sdkPath, elfFile, cFile, logFile]

/-- What the format string becomes with its arguments. -/
def formatArgs (parts : List (Shell.Sym Nat)) (args : List Bytes) : Bytes :=
  Shell.fill (fun i => args.getD i []) parts

section Names

variable {γ : Type} (cfg : Config γ)

def logFile (elfFile : Bytes) : Bytes := snprintf 1024 (elfFile ++ ascii ".log")

/-- `cmd`, what `system` gets. -/
def compileCommand (cFile elfFile : Bytes) : Bytes :=
  snprintf 1024 (cfg.gccCommand elfFile cFile (logFile elfFile))

end Names

end Smalltable.Ref
