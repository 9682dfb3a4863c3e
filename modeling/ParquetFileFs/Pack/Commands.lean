import ParquetFileFs.ChunkReader
import ParquetFileFs.Pack.Compressed
import ParquetFileFs.Py.Fs

/-!
# Packing from the command line and from Python

`pfs` and the Python functions turn texts into options, pack, and report.  Texts that
are no options are refused before anything is done; else the report says whether the
output was written, if it can be printed: it is printed last, and where stdout takes
nothing `pfs` panics with the output in place.

## Main definitions

* `Cmd`, `Cli`, `run`, `main_` — the commands of `pfs`, and what they print and exit
  with.
* `PyPack`, `PyPack.run` — `pack` and `pack_archive` as Python calls them.
* `packing` — what both do.

## Main results

* `exit_code_tells` — **the exit code of `pfs` tells whether the output was written.**
* `pack_returns` — **so does what Python gets.**
-/

namespace ParquetFileFs

open Program

/-! ### Options -/

/-- Options from texts, with the default size of row groups. -/
def buildOpts (pathColumn contentColumn compression : Str) : Except FsError PackOptions :=
  (PackCompression.parse compression).map fun c =>
    { pathColumn := pathColumn, contentColumn := contentColumn, compression := c }

/-- The format of an archive, if one is given. -/
def parseFormat : Option Str → Except FsError (Option ArchiveFormat)
  | none => .ok none
  | some s => (ArchiveFormat.parse s).map some

/-! ### The command line -/

inductive Cmd
  | pack (source out : Str) (root : Option Str) (pathColumn contentColumn compression : Str)
  | packArchive (archive out : Str) (format : Option Str)
      (pathColumn contentColumn compression : Str)

namespace Cmd

def out : Cmd → Str
  | .pack _ out _ _ _ _ => out
  | .packArchive _ out _ _ _ _ => out

/-- The call a command makes, unless its texts are no options. -/
def request (libs : ArchiveLibs) : Cmd → Except FsError (PackCall × PackOptions)
  | .pack source _ root pathColumn contentColumn compression =>
      (buildOpts pathColumn contentColumn compression).map fun opts => (.ofGlob source root, opts)
  | .packArchive archive _ format pathColumn contentColumn compression =>
      (parseFormat format).bind fun fmt =>
        (buildOpts pathColumn contentColumn compression).map fun opts =>
          (.ofArchive libs archive fmt, opts)

end Cmd

/-- What a process prints, and the code it exits with. -/
structure Exit where
  stdout : Str
  stderr : Str
  code : ℕ
  deriving DecidableEq, Repr

/-- What the arguments are parsed as: a command, or an exit of the parser's own, with
its help, the version or what is wrong with the arguments. -/
inductive Cli
  | cmd (c : Cmd)
  | exits (e : Exit)

/-- Which of its streams a process can write to. -/
structure Streams where
  stdout : Bool
  stderr : Bool

section Run

variable (W : ParquetWriter) (libs : ArchiveLibs)

def run : Cmd → FileM (PackSummary × Str)
  | .pack source out root pathColumn contentColumn compression =>
      match buildOpts pathColumn contentColumn compression with
      | .error e => .ret (.error (.err e))
      | .ok opts => (packGlob W source root out opts).andThen fun s => .ret (.ok (s, out))
  | .packArchive archive out format pathColumn contentColumn compression =>
      match parseFormat format with
      | .error e => .ret (.error (.err e))
      | .ok fmt =>
          match buildOpts pathColumn contentColumn compression with
          | .error e => .ret (.error (.err e))
          | .ok opts =>
              (packArchive W libs archive fmt out opts).andThen fun s => .ret (.ok (s, out))

def packedLine (s : PackSummary) (out : Str) : Str :=
  "packed ".toList ++ natStr s.files ++ " files (".toList ++ natStr s.bytes
    ++ " bytes) -> ".toList ++ out ++ "\n".toList

def panicked (streams : Streams) : Exit :=
  ⟨[], if streams.stderr then "thread 'main' panicked".toList else [], 101⟩

/-- What is printed at the end.  Printing to a stream that takes nothing panics. -/
def report (streams : Streams) : Outcome (PackSummary × Str) → Exit
  | .ok (s, out) => if streams.stdout then ⟨packedLine s out, [], 0⟩ else panicked streams
  | .error (.err e) =>
      if streams.stderr then ⟨[], "error: ".toList ++ e.display ++ "\n".toList, 1⟩
      else panicked streams
  | .error .panic => panicked streams

def main_ (streams : Streams) : Cli → Program (FsOp Str UInt8) (FsOp.Res Str) Exit
  | .exits e => .ret e
  | .cmd cmd => (run W libs cmd).bind fun r => .ret (report streams r)

end Run

/-! ### Python -/

/-- A call of `pack`, of a list of files or a pattern, or of `pack_archive`. -/
inductive PyPack
  | pack (source : List Str ⊕ Str) (out : Str) (root : Option Str)
      (pathColumn contentColumn compression : Str)
  | packArchive (archive out : Str) (format : Option Str)
      (pathColumn contentColumn compression : Str)

/-- The dict that sums up a call. -/
structure PackDict where
  files : ℕ
  bytes : ℕ
  path : Str
  deriving DecidableEq, Repr

def summaryToPy (s : PackSummary) (out : Str) : PackDict := ⟨s.files, s.bytes, out⟩

namespace PyPack

def out : PyPack → Str
  | .pack _ out _ _ _ _ => out
  | .packArchive _ out _ _ _ _ => out

/-- The call that is made, unless the arguments are refused. -/
def request (libs : ArchiveLibs) : PyPack → Except PyErr (PackCall × PackOptions)
  | .pack (.inl paths) _ root pathColumn contentColumn compression =>
      match root with
      | none => .error (.value "root is required when source is a list of files".toList)
      | some root => ((buildOpts pathColumn contentColumn compression).mapError toPy).map
          fun opts => (.ofFiles paths root, opts)
  | .pack (.inr pattern) _ root pathColumn contentColumn compression =>
      ((buildOpts pathColumn contentColumn compression).mapError toPy).map
        fun opts => (.ofGlob pattern root, opts)
  | .packArchive archive _ format pathColumn contentColumn compression =>
      ((parseFormat format).mapError toPy).bind fun fmt =>
        ((buildOpts pathColumn contentColumn compression).mapError toPy).map
          fun opts => (.ofArchive libs archive fmt, opts)

end PyPack

/-- A computation on the file system that Python waits for. -/
abbrev PyM (α : Type) := Program (FsOp Str UInt8) (FsOp.Res Str) (Except PyErr α)

/-- The result of a call, as Python receives it. -/
def toPyResult (out : Str) (r : Outcome PackSummary) : Except PyErr PackDict :=
  ofOutcome (r.map fun s => summaryToPy s out)

section Core

variable (W : ParquetWriter) (libs : ArchiveLibs)

def corePackGlob (pattern out : Str) (root : Option Str)
    (pathColumn contentColumn compression : Str) : PyM PackDict :=
  match buildOpts pathColumn contentColumn compression with
  | .error e => .ret (.error (toPy e))
  | .ok opts => (packGlob W pattern root out opts).bind fun r => .ret (toPyResult out r)

def corePackFiles (paths : List Str) (out root : Str)
    (pathColumn contentColumn compression : Str) : PyM PackDict :=
  match buildOpts pathColumn contentColumn compression with
  | .error e => .ret (.error (toPy e))
  | .ok opts => (packFiles W paths root out opts).bind fun r => .ret (toPyResult out r)

def corePackArchive (archive out : Str) (format : Option Str)
    (pathColumn contentColumn compression : Str) : PyM PackDict :=
  match parseFormat format with
  | .error e => .ret (.error (toPy e))
  | .ok fmt =>
      match buildOpts pathColumn contentColumn compression with
      | .error e => .ret (.error (toPy e))
      | .ok opts => (packArchive W libs archive fmt out opts).bind fun r =>
          .ret (toPyResult out r)

/-- The functions that Python calls. -/
def PyPack.run : PyPack → PyM PackDict
  | .pack (.inl paths) out root pathColumn contentColumn compression =>
      match root with
      | none => .ret (.error (.value "root is required when source is a list of files".toList))
      | some root => corePackFiles W paths out root pathColumn contentColumn compression
  | .pack (.inr pattern) out root pathColumn contentColumn compression =>
      corePackGlob W pattern out root pathColumn contentColumn compression
  | .packArchive archive out format pathColumn contentColumn compression =>
      corePackArchive W libs archive out format pathColumn contentColumn compression

end Core

/-! ### What both do -/

section Packing

variable {W : ParquetWriter} {libs : ArchiveLibs}
  {expand : Files → Str → Except Str (List (Except (Str × Str) Str))} {fs₀ fs : Files}
  {es : List FileEvent} {out : Str} {ε β : Type} {b : β}

/-- Refuse, or make a call and report. -/
def packing (W : ParquetWriter) (out : Str) (refused : ε → β) (done : Outcome PackSummary → β) :
    Except ε (PackCall × PackOptions) → Program (FsOp Str UInt8) (FsOp.Res Str) β
  | .error e => .ret (refused e)
  | .ok (c, opts) => (c.program W out opts).bind fun r => .ret (done r)

/-- **How a request that is refused, or makes its call, ends.** -/
theorem packing_cases {refused : ε → β} {done : Outcome PackSummary → β}
    {x : Except ε (PackCall × PackOptions)}
    (hrun : Run (fsWorld expand) fs₀ (packing W out refused done x) es fs (.ret b)) :
    (∃ e, x = .error e ∧ b = refused e ∧ es = [] ∧ fs = fs₀) ∨
    ∃ c opts r, x = .ok (c, opts) ∧ b = done r ∧
      Ends W fs₀ out opts (Distinct (c.Accepts W expand fs₀ out opts)) r es fs := by
  match x, hrun with
  | .error e, hrun =>
    obtain ⟨hes, hfs, hret⟩ := Run.of_ret hrun
    cases hret
    exact Or.inl ⟨e, rfl, rfl, hes, hfs⟩
  | .ok (c, opts), hrun =>
    obtain ⟨r, s', es₁, es₂, hcall, hrest, rfl⟩ := Run.of_bind hrun
    obtain ⟨rfl, rfl, hret⟩ := Run.of_ret hrest
    cases hret
    rw [List.append_nil]
    exact Or.inr ⟨c, opts, r, rfl, rfl, wp_sound (wp_program c) hcall⟩

theorem andThen_pair (p : FileM PackSummary) (out : Str) :
    (p.andThen fun s => .ret (.ok (s, out))) = p.bind fun r => .ret (r.map fun s => (s, out)) := by
  refine congrArg (p.bind ·) (funext fun r => ?_)
  cases r <;> rfl

theorem run_eq (cmd : Cmd) : run W libs cmd = packing W cmd.out (fun e => .error (.err e))
    (fun r => r.map fun s => (s, cmd.out)) (cmd.request libs) := by
  cases cmd with
  | pack source out root pathColumn contentColumn compression =>
    rw [run, Cmd.request]
    cases buildOpts pathColumn contentColumn compression with
    | error e => rfl
    | ok opts => exact andThen_pair _ _
  | packArchive archive out format pathColumn contentColumn compression =>
    rw [run, Cmd.request]
    cases parseFormat format with
    | error e => rfl
    | ok fmt =>
      cases buildOpts pathColumn contentColumn compression with
      | error e => rfl
      | ok opts => exact andThen_pair _ _

theorem main_eq (streams : Streams) (cmd : Cmd) : main_ W libs streams (.cmd cmd)
    = packing W cmd.out (fun e => report streams (.error (.err e)))
      (fun r => report streams (r.map fun s => (s, cmd.out))) (cmd.request libs) := by
  rw [main_, run_eq]
  cases cmd.request libs with
  | error e => rfl
  | ok c => exact bind_assoc _ _ _

theorem PyPack.run_eq (c : PyPack) : c.run W libs
    = packing W c.out .error (toPyResult c.out) (c.request libs) := by
  match c with
  | .pack (.inl paths) out none pathColumn contentColumn compression => rfl
  | .pack (.inl paths) out (some root) pathColumn contentColumn compression =>
    show corePackFiles W paths out root pathColumn contentColumn compression = _
    rw [corePackFiles, PyPack.request]
    cases buildOpts pathColumn contentColumn compression <;> rfl
  | .pack (.inr pattern) out root pathColumn contentColumn compression =>
    show corePackGlob W pattern out root pathColumn contentColumn compression = _
    rw [corePackGlob, PyPack.request]
    cases buildOpts pathColumn contentColumn compression <;> rfl
  | .packArchive archive out format pathColumn contentColumn compression =>
    show corePackArchive W libs archive out format pathColumn contentColumn compression = _
    rw [corePackArchive, PyPack.request]
    cases parseFormat format with
    | error e => rfl
    | ok fmt => cases buildOpts pathColumn contentColumn compression <;> rfl

theorem report_error (streams : Streams) (e : Failure) :
    (report streams (.error e)).code ≠ 0 ∧ (report streams (.error e)).stdout = [] := by
  cases e with
  | err e =>
    rw [report]
    split
    · exact ⟨Nat.one_ne_zero, rfl⟩
    · exact ⟨Nat.succ_ne_zero 100, rfl⟩
  | panic => exact ⟨Nat.succ_ne_zero 100, rfl⟩

theorem failedClean_start : FailedClean fs₀ out [] fs₀ := by
  refine ⟨fun hcreates => ?_, fun _ _ => rfl⟩
  obtain ⟨i, hi⟩ := hcreates
  exact absurd hi List.not_mem_nil

/-- **The exit code of `pfs` tells whether the output was written.**  With success the
command has published the rows it accepted, and prints how many files and bytes these
are.  Else it has left nothing behind, and has done nothing at all if its texts were no
options; only where the line cannot be printed the output is there nevertheless.  An
exit of the parser's own comes before anything is done. -/
theorem exit_code_tells (streams : Streams) (cli : Cli) {exit : Exit}
    (hrun : Run (fsWorld expand) fs₀ (main_ W libs streams cli) es fs (.ret exit)) :
    (∀ e, cli = .exits e → exit = e ∧ es = [] ∧ fs = fs₀) ∧
    ∀ cmd, cli = .cmd cmd →
      (exit.code = 0 → ∃ c opts rows, cmd.request libs = .ok (c, opts) ∧
        c.Accepts W expand fs₀ cmd.out opts rows es ∧ PublishedRows W fs₀ cmd.out opts rows fs ∧
        exit = ⟨packedLine ⟨rows.length, Grouping.total rowSize rows⟩ cmd.out, [], 0⟩) ∧
      (exit.code ≠ 0 → exit.stdout = [] ∧
        ((FailedClean fs₀ cmd.out es fs ∧ ∀ e, cmd.request libs = .error e →
            exit = report streams (.error (.err e)) ∧ es = [] ∧ fs = fs₀) ∨
          streams.stdout = false ∧ ∃ c opts rows, cmd.request libs = .ok (c, opts) ∧
            c.Accepts W expand fs₀ cmd.out opts rows es ∧
            PublishedRows W fs₀ cmd.out opts rows fs)) := by
  constructor
  · rintro e rfl
    obtain ⟨hes, hfs, hret⟩ := Run.of_ret hrun
    cases hret
    exact ⟨rfl, hes, hfs⟩
  rintro cmd rfl
  rw [main_eq] at hrun
  rcases packing_cases hrun with ⟨e, hreq, rfl, rfl, rfl⟩ | ⟨c, opts, r, hreq, rfl, hends⟩
  · refine ⟨fun hcode => absurd hcode (report_error _ _).1, fun _ =>
      ⟨(report_error _ _).2, Or.inl ⟨failedClean_start, fun e' he' => ?_⟩⟩⟩
    rw [hreq] at he'
    cases he'
    exact ⟨rfl, rfl, rfl⟩
  · cases r with
    | ok sum =>
      obtain ⟨rows, ⟨hrows, -⟩, rfl, hpub⟩ := hends
      cases hstdout : streams.stdout with
      | true =>
        have hexit : report streams (.ok (⟨rows.length, Grouping.total rowSize rows⟩, cmd.out))
            = ⟨packedLine ⟨rows.length, Grouping.total rowSize rows⟩ cmd.out, [], 0⟩ :=
          if_pos hstdout
        exact ⟨fun _ => ⟨c, opts, rows, hreq, hrows, hpub, hexit⟩,
          fun hcode => absurd (congrArg Exit.code hexit) hcode⟩
      | false =>
        -- the output is in place, and the line cannot be printed
        have hexit : report streams (.ok (⟨rows.length, Grouping.total rowSize rows⟩, cmd.out))
            = panicked streams := if_neg (by simp [hstdout])
        have hcode : (report streams (.ok (⟨rows.length, Grouping.total rowSize rows⟩,
            cmd.out))).code ≠ 0 := by
          rw [hexit]
          exact Nat.succ_ne_zero 100
        exact ⟨fun hzero => absurd hzero hcode, fun _ =>
          ⟨congrArg Exit.stdout hexit, Or.inr ⟨rfl, c, opts, rows, hreq, hrows, hpub⟩⟩⟩
    | error e =>
      refine ⟨fun hcode => absurd hcode (report_error _ _).1, fun _ =>
        ⟨(report_error _ _).2, Or.inl ⟨hends, fun e' he' => ?_⟩⟩⟩
      rw [hreq] at he'
      cases he'

/-- **Python gets a summary or an exception**, a summary if the call has published the
rows it accepted, and an exception if it has left nothing behind. -/
theorem pack_returns (c : PyPack) {r : Except PyErr PackDict}
    (hrun : Run (fsWorld expand) fs₀ (c.run W libs) es fs (.ret r)) :
    (∀ d, r = .ok d → ∃ call opts rows, c.request libs = .ok (call, opts) ∧
      call.Accepts W expand fs₀ c.out opts rows es ∧ PublishedRows W fs₀ c.out opts rows fs ∧
      d = ⟨rows.length, Grouping.total rowSize rows, c.out⟩) ∧
    ∀ e, r = .error e → FailedClean fs₀ c.out es fs ∧
      ∀ e', c.request libs = .error e' → e = e' ∧ es = [] ∧ fs = fs₀ := by
  rw [PyPack.run_eq] at hrun
  rcases packing_cases hrun with ⟨e, hreq, rfl, rfl, rfl⟩ | ⟨call, opts, r', hreq, rfl, hends⟩
  · refine ⟨fun d hd => (by cases hd), fun e' he' => ⟨failedClean_start, fun e'' he'' => ?_⟩⟩
    rw [hreq] at he''
    cases he'
    cases he''
    exact ⟨rfl, rfl, rfl⟩
  · cases r' with
    | ok sum =>
      obtain ⟨rows, ⟨hrows, -⟩, rfl, hpub⟩ := hends
      refine ⟨fun d hd => ?_, fun e he => by cases he⟩
      cases hd
      exact ⟨call, opts, rows, hreq, hrows, hpub, rfl⟩
    | error f =>
      refine ⟨fun d hd => ?_, fun e he => ⟨hends, fun e' he' => ?_⟩⟩
      · cases f <;> cases hd
      · rw [hreq] at he'
        cases he'

end Packing

/-- A pattern without wildcards finds itself. -/
def expandItself (_ : Files) (pattern : Str) : Except Str (List (Except (Str × Str) Str)) :=
  .ok [.ok pattern]

/-- The sample file is packed from the command line, and refused from Python. -/
theorem exit_code_tells_sample :
    ∃ es fs opts rows, Run (fsWorld expandItself) sampleFiles (main_ plainWriter memberLibs
      ⟨true, true⟩
      (.cmd (.pack "a".toList "o".toList none "path".toList "content".toList "none".toList))) es fs
      (.ret ⟨"packed 1 files (2 bytes) -> o\n".toList, [], 0⟩) ∧
    PublishedRows plainWriter sampleFiles "o".toList opts rows fs := by
  obtain ⟨es, hrun⟩ := run_exec (fsWorld_fsHandler expandItself) (main_ plainWriter memberLibs
    ⟨true, true⟩
    (.cmd (.pack "a".toList "o".toList none "path".toList "content".toList "none".toList)))
    sampleFiles
  have hres : (exec (fsHandler expandItself) (main_ plainWriter memberLibs
      ⟨true, true⟩
      (.cmd (.pack "a".toList "o".toList none "path".toList "content".toList "none".toList)))
      sampleFiles).1 = ⟨"packed 1 files (2 bytes) -> o\n".toList, [], 0⟩ := by decide
  rw [hres] at hrun
  obtain ⟨c, opts, rows, -, -, hpub, -⟩ := ((exit_code_tells _ _ hrun).2 _ rfl).1 rfl
  exact ⟨es, _, opts, rows, hrun, hpub⟩

theorem pack_returns_sample :
    ∃ es fs, Run (fsWorld expandItself) sampleFiles (PyPack.run plainWriter memberLibs
      (.pack (.inl ["a".toList]) "o".toList none "path".toList "content".toList "zstd".toList)) es
      fs (.ret (.error (.value "root is required when source is a list of files".toList))) ∧
    FailedClean sampleFiles "o".toList es fs := by
  obtain ⟨es, hrun⟩ := run_exec (fsWorld_fsHandler expandItself) (PyPack.run plainWriter memberLibs
    (.pack (.inl ["a".toList]) "o".toList none "path".toList "content".toList "zstd".toList))
    sampleFiles
  exact ⟨es, _, hrun, ((pack_returns _ hrun).2 _ rfl).1⟩

end ParquetFileFs
