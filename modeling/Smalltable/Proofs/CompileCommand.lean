import Smalltable.Proofs.KeyNames
import Smalltable.Ref.CompileCommand

/-!
# The names of uploaded code in the compiler command

The escape that makes a name of a key is made for file systems. What is special to a
shell it keeps in four cases: the operators `;`, `<`, `>` and `|`. A key with one of
them among the bytes that reach the name ends the word, and so the command that was
configured. It keeps brackets and braces as well: a closed pair makes a pattern of the
name, and the shell puts another file in its place when there is one that matches.

Without these, and when the command is not cut off, the shell sees the tokens of the
configured command with the names in their words, and no expansion changes a name
(`codeLoad_inert_iff`). Which bytes reach a name is decided by three cuts, one in the
escape and two behind it (`nameRoom`); what the escape keeps of the key then stands in
the name in the order it has in the key (`kept_pluginFile`).
-/

namespace Smalltable.Proofs

open Smalltable.Ref

section Compile

variable {γ : Type} (cfg : Config γ)

/-- `process_compile` runs that command. -/
theorem processCompile_system (cFile elfFile source : Bytes) (dstSz : Int) :
    (processCompile cfg cFile elfFile source dstSz).1
      = (cfg.system (compileCommand cfg cFile elfFile) source).1 := rfl

/-- The names made for a key: source, program and log. -/
def codeNames (key : Bytes) : List Bytes :=
  [pluginFile cfg key ".c", pluginFile cfg key ".elf", logFile (pluginFile cfg key ".elf")]

def codeCommand (key : Bytes) : Bytes :=
  compileCommand cfg (pluginFile cfg key ".c") (pluginFile cfg key ".elf")

/-- The arguments for a key. -/
def codeArgs (vx32sdkPath key : Bytes) : List Bytes :=
  compileArgs vx32sdkPath (pluginFile cfg key ".elf") (pluginFile cfg key ".c")
    (logFile (pluginFile cfg key ".elf"))

/-- A configuration with nothing special to the shell where strings are put in: `parts` is its
command, with the holes outside quotes. -/
structure Configured (vx32sdkPath command : Bytes) (parts : List (Shell.Sym Nat)) : Prop where
  format : formatParts 0 command = some parts
  args : ∀ i, Shell.Sym.hole i ∈ parts → i < 4
  plain : Shell.Lexer.plainHoles {} parts
  gccCommand : ∀ elfFile cFile logFile, cfg.gccCommand elfFile cFile logFile
    = formatArgs parts (compileArgs vx32sdkPath elfFile cFile logFile)
  vx32sdkPath : Shell.Inert vx32sdkPath
  tmpdir : ∀ c ∈ cfg.tmpdir, c ∉ Shell.special ∧ c ∉ Shell.brackets
  tmpdirStart : cfg.tmpdir.head? ≠ some 0x23 ∧ cfg.tmpdir.head? ≠ some 0x7E

/-- The names are inert in the command. -/
structure RunsAsWords (vx32sdkPath : Bytes) (parts : List (Shell.Sym Nat)) (key : Bytes) :
    Prop where
  free : ∀ name ∈ codeNames cfg key, ∀ c ∈ name, c ∉ Shell.special
  /-- the whole command, with the names -/
  command : codeCommand cfg key = formatArgs parts (codeArgs cfg vx32sdkPath key)
  /-- the tokens of the command, with the names in their words -/
  tokens : Shell.tokens (Shell.text (codeCommand cfg key)) = (Shell.tokens parts).map
    (Shell.Token.fill fun i => (codeArgs cfg vx32sdkPath key).getD i [])
  /-- whatever there is that they could expand to -/
  single : ∀ e : Shell.Expansion, ∀ name ∈ codeNames cfg key, e.words name = [name]

/-! ## The bytes of the key in a name

The escape goes through the key from its beginning and stops when the name is full, so a
byte counts when its escape begins within the room there is. The prefix and what is
configured have nothing special in them, so what is special in a name was in the key
(`kept_pluginFile`). -/

/-- The bytes whose escape begins within the first `room` characters. -/
def reaching (room : Nat) : Bytes → Nat → Bytes
  | [], _ => []
  | c :: rest, used =>
      if used < room then c :: reaching room rest (used + (keyEscapeByte c).length) else []

/-- The room for them: `key_escape` stops at 27 characters, the prefix is cut to the length of
the key, and the name to 1023. -/
def nameRoom (key : Bytes) : Nat := min 27 (min key.length (1015 - cfg.tmpdir.length))

def shellOperators : Bytes := ascii ";<>|"

/-- Nothing in it that the escape keeps means something to a shell. -/
structure Harmless (bytes : Bytes) : Prop where
  operators : ∀ c ∈ bytes, c ∉ shellOperators
  brackets : ¬ (ascii "[]").Sublist bytes
  braces : ¬ (ascii "{}").Sublist bytes

instance (bytes : Bytes) : Decidable (Harmless bytes) :=
  decidable_of_iff ((∀ c ∈ bytes, c ∉ shellOperators) ∧ ¬ (ascii "[]").Sublist bytes ∧
      ¬ (ascii "{}").Sublist bytes)
    ⟨fun h => ⟨h.1, h.2.1, h.2.2⟩, fun h => ⟨h.operators, h.brackets, h.braces⟩⟩

/-- What the escape keeps. -/
def unescaped : Bytes := shellOperators ++ Shell.brackets

def kept (w : Bytes) : Bytes := w.filter fun c => unescaped.contains c

theorem kept_append (w w' : Bytes) : kept (w ++ w') = kept w ++ kept w' :=
  List.filter_append w w'

theorem kept_eq_nil {w : Bytes} (h : ∀ c ∈ w, c ∉ unescaped) : kept w = [] :=
  List.filter_eq_nil_iff.mpr fun c hc => by simpa using h c hc

theorem mem_kept {c : UInt8} (hc : c ∈ unescaped) (w : Bytes) : c ∈ kept w ↔ c ∈ w := by
  rw [kept, List.mem_filter]
  exact and_iff_left (by simpa using hc)

/-- It is in the same order. -/
theorem sublist_kept {p : Bytes} (hp : p ⊆ unescaped) (w : Bytes) :
    p.Sublist (kept w) ↔ p.Sublist w := by
  refine ⟨fun h => h.trans List.filter_sublist, fun h => ?_⟩
  have hself : kept p = p := List.filter_eq_self.mpr fun c hc => by simpa using hp hc
  rw [← hself]
  exact h.filter _

theorem harmless_kept (w : Bytes) : Harmless (kept w) ↔ Harmless w := by
  have hops : ∀ c ∈ shellOperators, c ∈ unescaped := fun c hc => List.mem_append_left _ hc
  constructor
  · intro h
    exact ⟨fun c hc hop => h.operators c ((mem_kept (hops c hop) w).mpr hc) hop,
      fun hin => h.brackets ((sublist_kept (by decide) w).mpr hin),
      fun hin => h.braces ((sublist_kept (by decide) w).mpr hin)⟩
  · intro h
    exact ⟨fun c hc hop => h.operators c ((mem_kept (hops c hop) w).mp hc) hop,
      fun hin => h.brackets ((sublist_kept (by decide) w).mp hin),
      fun hin => h.braces ((sublist_kept (by decide) w).mp hin)⟩

theorem kept_keyEscapeByte (d : UInt8) : kept (keyEscapeByte d) = kept [d] := by
  rw [keyEscapeByte]
  by_cases hd : plainChars.contains d
  · rw [if_pos hd]
  · rw [if_neg hd]
    have hhex : ∀ n, n < 16 → toHexTrans n ∉ unescaped := by
      intro n hn hin
      exact (by decide : ∀ c ∈ unescaped, c ∉ ascii "0123456789ABCDEF") _ hin (toHexTrans_mem hn)
    rw [kept_eq_nil, kept_eq_nil]
    · intro c hc hin
      rw [List.mem_singleton.mp hc] at hin
      exact hd (by simpa using (by decide : unescaped ⊆ plainChars) hin)
    · intro c hc
      simp only [List.mem_cons, List.not_mem_nil, or_false] at hc
      rcases hc with rfl | rfl | rfl
      · decide
      · exact hhex _ (Nat.mod_lt _ (by decide))
      · exact hhex _ (Nat.mod_lt _ (by decide))

theorem reaching_full {room used : Nat} (h : room ≤ used) (key : Bytes) :
    reaching room key used = [] := by
  cases key with
  | nil => rfl
  | cons c rest => rw [reaching, if_neg (by omega)]

/-- By induction on the key, with what has been written. -/
theorem kept_keyEscapeLoop_take (m : Nat) : ∀ {key out : Bytes},
    kept ((keyEscapeLoop 32 key out).take m)
      = kept (out.take m) ++ kept (reaching (min 27 m) key out.length) := by
  intro key
  induction key with
  | nil => intro out; rw [keyEscapeLoop, reaching, ← kept_append, List.append_nil]
  | cons d rest ih =>
      intro out
      rw [keyEscapeLoop, reaching]
      by_cases hroom : out.length + 5 < 32
      · rw [if_pos hroom, ih, List.length_append]
        by_cases hm : out.length < m
        · have hone : kept ((keyEscapeByte d).take (m - out.length)) = kept [d] := by
            by_cases hd : plainChars.contains d
            · rw [keyEscapeByte, if_pos hd, List.take_of_length_le (by simp; omega)]
            · -- what is cut of an escape has nothing kept in it
              have hnone : kept [d] = [] := kept_eq_nil fun c hc hin => by
                rw [List.mem_singleton.mp hc] at hin
                exact hd (by simpa using (by decide : unescaped ⊆ plainChars) hin)
              have hescape := kept_keyEscapeByte d
              rw [hnone] at hescape ⊢
              refine kept_eq_nil fun c hc hin => ?_
              have hmem := (mem_kept hin (keyEscapeByte d)).mpr (List.mem_of_mem_take hc)
              rw [hescape] at hmem
              cases hmem
          rw [if_pos (by omega), List.take_append, kept_append, hone, List.append_assoc,
            ← kept_append, List.singleton_append]
        · rw [if_neg (by omega), reaching_full (by omega),
            List.take_append_of_le_length (by omega)]
      · rw [if_neg hroom, if_neg (by omega), ← kept_append, List.append_nil]

theorem keyEscapeLoop_subset {dstSz : Nat} : ∀ {key out : Bytes}, out ⊆ nameChars →
    keyEscapeLoop dstSz key out ⊆ nameChars := by
  intro key
  induction key with
  | nil => exact fun h => h
  | cons c rest ih =>
      intro out h
      have hc : keyEscapeByte c ⊆ nameChars := fun d hd =>
        escaped_chars (show d ∈ [c].flatMap keyEscapeByte by simpa using hd)
      rw [keyEscapeLoop]
      split
      · exact ih (List.append_subset.mpr ⟨h, hc⟩)
      · exact h

variable {cfg}

/-- What the escape keeps of a name is what it keeps of the bytes that reach it. -/
theorem kept_pluginFile (htmp : kept cfg.tmpdir = []) {suffix : String}
    (hsuffix : kept (ascii suffix) = []) (key : Bytes) :
    kept (pluginFile cfg key suffix) = kept (reaching (nameRoom cfg key) key 0) := by
  have hroom : nameRoom cfg key = min 27 (min (1015 - cfg.tmpdir.length) (min key.length 31)) := by
    rw [nameRoom]
    omega
  have hcut : ∀ {w : Bytes}, kept w = [] → ∀ n, kept (w.take n) = [] := by
    intro w hw n
    refine List.sublist_nil.mp ?_
    rw [← hw]
    exact (List.take_sublist n w).filter _
  have hfront : kept (cfg.tmpdir ++ ascii "/plugin-") = [] := by
    rw [kept_append, htmp]
    decide
  have hlen : (cfg.tmpdir ++ ascii "/plugin-").length = cfg.tmpdir.length + 8 := by
    rw [List.length_append]
    rfl
  have hprefix : kept (((keyEscape 32 key).take (min key.length 31)).take
      (1015 - cfg.tmpdir.length)) = kept (reaching (nameRoom cfg key) key 0) := by
    rw [List.take_take, keyEscape, kept_keyEscapeLoop_take, hroom, List.take_nil]
    rfl
  rw [pluginFile, snprintf, List.append_assoc]
  generalize cfg.tmpdir ++ ascii "/plugin-" = front at hfront hlen
  rw [List.take_append, List.take_append, kept_append, kept_append, hlen, hcut hfront,
    hcut hsuffix, List.append_nil, List.nil_append, ← hprefix,
    show 1024 - 1 - (cfg.tmpdir.length + 8) = 1015 - cfg.tmpdir.length by omega]

/-! ## The command

The command is a format, and what is configured of it is read by the shell's rules once
and for all: its parts are tokens with gaps in their words. Filling a gap with an inert
name leaves the tokens what they are, and a name with an operator in it does not;
neither does a command that has lost its end. -/

/-- What is in a name, all in all. -/
theorem pluginFile_chars (hcfg : ∀ c ∈ cfg.tmpdir, c ∉ Shell.special ∧ c ∉ Shell.brackets)
    {suffix : String}
    (hsuffix : ∀ c ∈ ascii suffix, c ∉ Shell.special) {key : Bytes} {c : UInt8}
    (hc : c ∈ pluginFile cfg key suffix) (hspecial : c ∈ Shell.special) : c ∈ shellOperators := by
  have hmem := List.mem_of_mem_take hc
  simp only [List.mem_append] at hmem
  rcases hmem with ((hmem | hmem) | hmem) | hmem
  · exact absurd hspecial (hcfg c hmem).1
  · exact absurd hspecial ((by decide : ∀ c ∈ ascii "/plugin-", c ∉ Shell.special) c hmem)
  · have hname : c ∈ nameChars :=
      keyEscapeLoop_subset (List.nil_subset _) (List.mem_of_mem_take hmem)
    exact (by decide : ∀ c ∈ nameChars, c ∈ Shell.special → c ∈ shellOperators) c hname hspecial
  · exact absurd hspecial (hsuffix c hmem)

/-- A name begins as the directory does, or with a slash. -/
theorem pluginFile_start {c : UInt8} (h : cfg.tmpdir.head? ≠ some c) (hslash : c ≠ 0x2F)
    (key : Bytes) (suffix : String) :
    pluginFile cfg key suffix ≠ [] ∧ (pluginFile cfg key suffix).head? ≠ some c := by
  rw [pluginFile, snprintf]
  cases htmp : cfg.tmpdir with
  | nil => exact ⟨by simp [ascii], by simpa [ascii] using hslash.symm⟩
  | cons d rest =>
      rw [htmp] at h
      exact ⟨by simp, by simpa using h⟩

theorem logFile_start {elfFile : Bytes} (hne : elfFile ≠ []) {c : UInt8}
    (h : elfFile.head? ≠ some c) : logFile elfFile ≠ [] ∧ (logFile elfFile).head? ≠ some c := by
  rw [logFile, snprintf]
  cases elfFile with
  | nil => exact absurd rfl hne
  | cons d rest => exact ⟨by simp, by simpa using h⟩

/-- The log adds nothing that means anything. -/
theorem logFile_literal {elfFile : Bytes} (h : Shell.Literal elfFile) :
    Shell.Literal (logFile elfFile) := by
  have hpair : ∀ p : Bytes, p ⊆ unescaped → p.Sublist (logFile elfFile) → p.Sublist elfFile := by
    intro p hp hin
    have hin := (sublist_kept hp _).mpr (hin.trans (List.take_sublist _ _))
    rw [kept_append, show kept (ascii ".log") = [] by decide, List.append_nil] at hin
    exact (sublist_kept hp _).mp hin
  obtain ⟨hne, htilde⟩ := logFile_start h.nonempty h.tilde
  refine ⟨hne, fun c hc hspecial => ?_, htilde, fun hin => h.brackets (hpair _ (by decide) hin),
    fun hin => h.braces (hpair _ (by decide) hin)⟩
  rcases List.mem_append.mp (List.mem_of_mem_take hc) with hmem | hmem
  · exact h.free c hmem hspecial
  · exact (by decide : ∀ c ∈ ascii ".log", c ∉ Shell.special) c hmem hspecial

variable {vx32sdkPath command : Bytes} {parts : List (Shell.Sym Nat)}

/-- A name asks for something exactly when the bytes that reach it do. -/
theorem pluginFile_literal_iff (h : Configured cfg vx32sdkPath command parts) (key : Bytes)
    (suffix : String) (hsuffix : ∀ c ∈ ascii suffix, c ∉ Shell.special ∧ c ∉ Shell.brackets) :
    Shell.Literal (pluginFile cfg key suffix) ↔ Harmless (reaching (nameRoom cfg key) key 0) := by
  have hfree : ∀ {w : Bytes}, (∀ c ∈ w, c ∉ Shell.special ∧ c ∉ Shell.brackets) → kept w = [] := by
    intro w hw
    refine kept_eq_nil fun c hc hin => ?_
    rcases List.mem_append.mp hin with hop | hbracket
    · exact (hw c hc).1 ((by decide : ∀ c ∈ shellOperators, c ∈ Shell.special) c hop)
    · exact (hw c hc).2 hbracket
  obtain ⟨hne, htilde⟩ := pluginFile_start h.tmpdirStart.2 (by decide) key suffix
  rw [← harmless_kept (reaching _ _ _), ← kept_pluginFile (hfree h.tmpdir) (hfree hsuffix) key,
    harmless_kept]
  constructor
  · intro hlit
    exact ⟨fun c hc hop =>
        hlit.free c hc ((by decide : ∀ c ∈ shellOperators, c ∈ Shell.special) c hop),
      hlit.brackets, hlit.braces⟩
  · intro hharmless
    exact ⟨hne, fun c hc hbad => hharmless.operators c hc
        (pluginFile_chars h.tmpdir (fun c hc => (hsuffix c hc).1) hc hbad),
      htilde, hharmless.brackets, hharmless.braces⟩

theorem codeNames_literal_iff (h : Configured cfg vx32sdkPath command parts) (key : Bytes) :
    (∀ name ∈ codeNames cfg key, Shell.Literal name) ↔
      Harmless (reaching (nameRoom cfg key) key 0) := by
  have hc := pluginFile_literal_iff h key ".c" (by decide)
  have helf := pluginFile_literal_iff h key ".elf" (by decide)
  constructor
  · intro hlit
    exact hc.mp (hlit _ List.mem_cons_self)
  · intro hharmless name hname
    simp only [codeNames, List.mem_cons, List.not_mem_nil, or_false] at hname
    rcases hname with rfl | rfl | rfl
    · exact hc.mpr hharmless
    · exact helf.mpr hharmless
    · exact logFile_literal (helf.mpr hharmless)

/-- A word that some shell changes asks for it. -/
theorem literal_of_single {w : Bytes} (h : ∀ e : Shell.Expansion, e.words w = [w]) :
    Shell.Literal w := by
  classical
  by_contra hnot
  have hgone := h {
    words := fun w => if Shell.Literal w then [w] else []
    literal := fun hw => if_pos hw }
  have hnone : (if Shell.Literal w then [w] else []) = [w] := hgone
  rw [if_neg hnot] at hnone
  cases hnone

/-- Every argument is a word, then. -/
theorem codeArgs_inert (h : Configured cfg vx32sdkPath command parts) {key : Bytes}
    (hfree : ∀ name ∈ codeNames cfg key, ∀ c ∈ name, c ∉ Shell.special) {i : Nat} (hi : i < 4) :
    Shell.Inert ((codeArgs cfg vx32sdkPath key).getD i []) := by
  obtain ⟨hcne, hcstart⟩ := pluginFile_start h.tmpdirStart.1 (by decide) key ".c"
  obtain ⟨hene, hestart⟩ := pluginFile_start h.tmpdirStart.1 (by decide) key ".elf"
  obtain ⟨hlne, hlstart⟩ := logFile_start hene hestart
  match i, hi with
  | 0, _ => exact h.vx32sdkPath
  | 1, _ => exact ⟨hene, hfree (pluginFile cfg key ".elf") (by simp [codeNames]), hestart⟩
  | 2, _ => exact ⟨hcne, hfree (pluginFile cfg key ".c") (by simp [codeNames]), hcstart⟩
  | 3, _ => exact ⟨hlne, hfree (logFile (pluginFile cfg key ".elf")) (by simp [codeNames]), hlstart⟩

theorem codeCommand_eq (h : Configured cfg vx32sdkPath command parts) (key : Bytes) :
    codeCommand cfg key = (formatArgs parts (codeArgs cfg vx32sdkPath key)).take 1023 := by
  rw [codeCommand, compileCommand, h.gccCommand]
  rfl

/-- The names are inert exactly when, among the bytes of the key that are in them, there is no
operator of the shell and no bracket or brace that is closed, and the command is not cut off. -/
theorem codeLoad_inert_iff (h : Configured cfg vx32sdkPath command parts) (key : Bytes) :
    RunsAsWords cfg vx32sdkPath parts key ↔
      Harmless (reaching (nameRoom cfg key) key 0) ∧
      (formatArgs parts (codeArgs cfg vx32sdkPath key)).length < 1024 := by
  constructor
  · intro hruns
    refine ⟨(codeNames_literal_iff h key).mp fun name hname =>
      literal_of_single fun e => hruns.single e name hname, ?_⟩
    have hlen := congrArg List.length hruns.command
    rw [codeCommand_eq h, List.length_take] at hlen
    omega
  · intro ⟨hreach, hlen⟩
    have hlit := (codeNames_literal_iff h key).mpr hreach
    have hfree : ∀ name ∈ codeNames cfg key, ∀ c ∈ name, c ∉ Shell.special :=
      fun name hname => (hlit name hname).free
    have hcommand : codeCommand cfg key = formatArgs parts (codeArgs cfg vx32sdkPath key) := by
      rw [codeCommand_eq h, List.take_of_length_le (by omega)]
    refine ⟨hfree, hcommand, ?_, fun e name hname => e.literal (hlit name hname)⟩
    rw [hcommand]
    exact Shell.tokens_fill h.plain fun i hi => codeArgs_inert h hfree (h.args i hi)

end Compile

/-! ### The command of the server -/

def defaultParts : List (Shell.Sym Nat) := (formatParts 0 defaultVx32sdkGccCommand).getD []

/-- `vx32sdk_path` -/
def defaultVx32sdkPath : Bytes := ascii "./untrusted/"

def defaultConfig : Config Unit where
  gccCommand := fun elfFile cFile logFile =>
    formatArgs defaultParts (compileArgs defaultVx32sdkPath elfFile cFile logFile)
  writeFile := fun _ _ => none
  system := fun _ _ => (0, none)
  loadElf := fun _ _ => none

theorem defaultParts_args : ∀ i, Shell.Sym.hole i ∈ defaultParts → i < 4 := by
  have hargs : defaultParts.all (fun s => match s with | .hole i => i < 4 | .chr _ => true) := by
    decide +kernel
  intro i hi
  simpa using List.all_eq_true.mp hargs _ hi

theorem defaultParts_format : formatParts 0 defaultVx32sdkGccCommand = some defaultParts := by
  have hsome : (formatParts 0 defaultVx32sdkGccCommand).isSome := by decide +kernel
  obtain ⟨parts, hparts⟩ := Option.isSome_iff_exists.mp hsome
  rw [defaultParts, hparts, Option.getD_some]

theorem defaultConfig_configured :
    Configured defaultConfig defaultVx32sdkPath defaultVx32sdkGccCommand defaultParts where
  format := defaultParts_format
  args := defaultParts_args
  plain := by decide +kernel
  gccCommand := by
    intro elfFile cFile logFile
    simp only [defaultConfig]
  vx32sdkPath := ⟨by decide, by decide, by decide⟩
  tmpdir := by decide
  tmpdirStart := by decide

/-- The key of the test, `+- *`. -/
theorem codeLoad_inert_iff_gccWarning :
    RunsAsWords defaultConfig defaultVx32sdkPath defaultParts (ascii "+- *") :=
  (codeLoad_inert_iff defaultConfig_configured (ascii "+- *")).mpr
    ⟨by decide +kernel, by decide +kernel⟩

/-- A key that is a command, and one that is a pattern. -/
theorem codeLoad_notInert : (¬ ∀ (cfg : Config Unit) (vx32sdkPath command : Bytes)
      (parts : List (Shell.Sym Nat)), Configured cfg vx32sdkPath command parts →
      ∀ key : Bytes, 1 ≤ key.length → key.length ≤ 256 →
        RunsAsWords cfg vx32sdkPath parts key) ∧
    ¬ RunsAsWords defaultConfig defaultVx32sdkPath defaultParts (ascii "a[b]") := by
  constructor
  · intro h
    have hruns := h _ _ _ _ defaultConfig_configured (ascii "a;halt;") (by decide) (by decide)
    have hmem : (0x3B : UInt8) ∈ pluginFile defaultConfig (ascii "a;halt;") ".c" := by
      decide +kernel
    exact hruns.free _ List.mem_cons_self 0x3B hmem (by decide)
  · intro hruns
    have hwords := hruns.single (Shell.pathnameExpansion [ascii "/tmp/plugin-ab.c"] (by decide)) _
      List.mem_cons_self
    revert hwords
    decide +kernel

end Smalltable.Proofs
