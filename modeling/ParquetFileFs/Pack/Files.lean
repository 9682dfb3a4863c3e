import ParquetFileFs.Pack.Paths
import ParquetFileFs.Pack.Writer

/-!
# Packing files

Files are given as a list or found by a pattern; each must be a regular file
below the root.  They are packed in the order of their stored paths, each read
when its turn comes.

## Main definitions

* `mapEach`, `packEach` — one computation after another, for results and on a writer.
* `writePairs` — write the sorted pairs of a stored path and a source.
* `packFiles`, `packGlob` — pack a list of files, and what a pattern finds.
-/

namespace ParquetFileFs

/-! ### One after another -/

/-- Compute each, and collect the results. -/
def mapEach {α β : Type} (f : α → FileM β) : List α → FileM (List β)
  | [] => .ret (.ok [])
  | a :: as => (f a).andThen fun b => (mapEach f as).andThen fun bs => .ret (.ok (b :: bs))

/-- Take a writer through each. -/
def packEach {α : Type} (step : PackWriter → α → FileM PackWriter) :
    PackWriter → List α → FileM PackWriter
  | w, [] => .ret (.ok w)
  | w, a :: as => (step w a).andThen fun w' => packEach step w' as

/-! ### Pairs of a stored path and a source -/

/-- Open a file and read all of it. -/
def readFile (path : Str) : FileM Bytes :=
  .call (.read path) fun
    | .ok bs => .ret (.ok bs)
    | .error e => .ret (.error (.err (.io path e)))

section Pack

variable (W : ParquetWriter)

/-- Append the file `pair.2` under the path `pair.1`. -/
def appendFile (w : PackWriter) (pair : Str × Str) : FileM PackWriter :=
  (readFile pair.2).andThen fun data => w.append W pair.1 data

/-- Write the pairs, sorted, into `out`. -/
def writePairs (pairs : List (Str × Str)) (out : Str) (opts : PackOptions) : FileM PackSummary :=
  (PackWriter.create W out opts).andThen fun w =>
    ((packEach (appendFile W) w (sortPairs pairs)).onError (dropWriter w)).andThen
      (PackWriter.finish W)

/-! ### Lists of files -/

/-- A file to pack must be regular and below the root. -/
def checkFile (root p : Str) : FileM (Str × Str) :=
  .call (.stat p) fun
    | .error e => .ret (.error (.err (.io p e)))
    | .ok .dir => .ret (.error (.err (.pack ("'".toList ++ p ++ "' is not a regular file".toList))))
    | .ok .file => .ret (lift ((storedPath p root).map fun s => (s, p)))

def packFiles (paths : List Str) (root out : Str) (opts : PackOptions) : FileM PackSummary :=
  if paths = [] then .ret (.error (.err (.pack "no files to pack".toList)))
  else (mapEach (checkFile root) paths).andThen fun pairs => writePairs W pairs out opts

/-! ### Patterns -/

/-- What is found for a pattern is packed if it is a regular file. -/
def globEntry (root : Str) : Except (Str × Str) Str → FileM (Option (Str × Str))
  | .error (p, e) => .ret (.error (.err (.io p e)))
  | .ok p =>
      .call (.stat p) fun
        | .ok .file => .ret (lift ((storedPath p root).map fun s => some (s, p)))
        | _ => .ret (.ok none)

/-- Pack the files a pattern finds below the root. -/
def packExpanded (pattern root out : Str) (opts : PackOptions) : FileM PackSummary :=
  .call (.expand pattern) fun
    | .error e => .ret (.error (.err (.pack ("bad glob pattern '".toList ++ pattern ++ "': ".toList
        ++ e))))
    | .ok entries =>
        (mapEach (globEntry root) entries).andThen fun found =>
          let pairs := found.filterMap id
          if pairs = [] then
            .ret (.error (.err (.pack ("no files matched '".toList ++ pattern ++ "'".toList))))
          else writePairs W pairs out opts

/-- A directory stands for all that is below it; otherwise the default root is
the wildcard-free prefix of the pattern. -/
def packGlob (pattern : Str) (root : Option Str) (out : Str) (opts : PackOptions) :
    FileM PackSummary :=
  .call (.stat pattern) fun
    | .ok .dir =>
        let dir := pattern.rdropWhile (· = '/')
        packExpanded W (dir ++ "/**/*".toList) (root.getD dir) out opts
    | _ => packExpanded W pattern (root.getD (globFixedPrefix pattern)) out opts

end Pack

end ParquetFileFs
