import Mathlib
import Keyvi.Library.NewestWins
import Keyvi.Library.Run
import Keyvi.Index.Segment
import Keyvi.Index.MergePolicy

/-!
# The index writer

One worker thread executes the queued operations and, at intervals, the scheduled task; merge jobs
run beside it. A `Writer` is the worker's payload with all segment objects, the directory on disk
and a journal of every file operation in order, so that a crash between two file operations is a cut
through the journal.

Segment objects are shared between the segment list and the merge jobs; they are found by the number
of their file. Every new file gets the next free number.
-/

namespace Keyvi.Index

variable {V : Type}

/-! ## The directory -/

/-- The files of all segments, `index.toc` and `index.toc.part`. -/
structure Directory (V : Type) where
  files : Nat → SegmentFiles V
  toc : Option (List Nat)
  tocPart : Option (List Nat)

inductive FileOp (V : Type)
  | segment (file : Nat) (op : SegmentFileOp V)
  | writeTocPart (files : List Nat)
  | renameToc

namespace Directory

def empty : Directory V := ⟨fun _ => SegmentFiles.none, none, none⟩

def apply (d : Directory V) : FileOp V → Directory V
  | .segment i op => { d with files := Function.update d.files i (op.apply (d.files i)) }
  | .writeTocPart files => { d with tocPart := some files }
  | .renameToc =>
    match d.tocPart with
    | some files => { d with toc := some files, tocPart := none }
    | none => d

/-- The directory after the operations of a journal. -/
def replay (d : Directory V) (journal : List (FileOp V)) : Directory V := journal.foldl apply d

end Directory

/-! ## State -/

/-- `MergeJob`. `ended` is what has become of its process or thread: the exit code once it has
ended. `read` are the `.dk` lists it has loaded so far, one for each input. -/
structure MergeJob where
  segments : List Nat
  outputFilename : Nat
  external : Bool
  exitCode : Int
  mergeDone : Bool
  processFinished : Bool
  ended : Option Int
  read : List DeletedKeys

namespace MergeJob

/-- The constructor and `Run`. -/
def start (segments : List Nat) (outputFilename : Nat) (external : Bool) : MergeJob :=
  ⟨segments, outputFilename, external, -1, false, false, none, []⟩

/-- `TryFinalize`: `none` while the thread of an internal merge has to be joined. -/
def tryFinalize (p : MergeJob) : Option (Bool × MergeJob) :=
  if p.processFinished then some (true, p)
  else
    match p.ended with
    | some code => some (true, { p with exitCode := code, processFinished := true })
    | none => if p.external then some (false, p) else none

/-- `Finalize`: `none` while the process or thread has to be waited for. -/
def finalize (p : MergeJob) : Option MergeJob :=
  if p.processFinished then some p
  else
    match p.ended with
    | some code => some { p with exitCode := code, processFinished := true }
    | none => none

/-- `Successful`. -/
def successful (p : MergeJob) : Bool := decide (p.exitCode = 0)

end MergeJob

/-- The two policies. -/
inductive MergePolicy (V : Type)
  | simple
  | tiered (better : List (Segment V) → List (Segment V) → Bool)

structure IndexSettings (V : Type) where
  maxConcurrentMerges : Nat
  mergePolicy : MergePolicy V

/-- `IndexPayload`, with the segment objects, the directory and the journal. The compiler holds what
has been added and deleted, in order. -/
structure Writer (V : Type) where
  compiler : Option (List (Key × Option V))
  segments : List Nat
  mergeJobs : List MergeJob
  anyDelete : Bool
  mergeEnabled : Bool
  object : Nat → Segment V
  directory : Directory V
  journal : List (FileOp V)
  nextFile : Nat

namespace Writer

/-- A file operation. -/
def emit (w : Writer V) (op : FileOp V) : Writer V :=
  { w with directory := w.directory.apply op, journal := w.journal ++ [op] }

def emitAll (w : Writer V) (ops : List (FileOp V)) : Writer V := ops.foldl emit w

/-- File operations of the segment `i`. -/
def emitSegment (w : Writer V) (i : Nat) (ops : List (SegmentFileOp V)) : Writer V :=
  w.emitAll (ops.map (.segment i))

def setObject (w : Writer V) (i : Nat) (s : Segment V) : Writer V :=
  { w with object := Function.update w.object i s }

/-! ## Writing -/

/-- `CreateCompilerIfNeeded` and `Add`. -/
def add (w : Writer V) (k : Key) (v : V) : Writer V :=
  { w with compiler := some (w.compiler.getD [] ++ [(k, some v)]) }

/-- The bulk `Add`. -/
def bulkAdd (w : Writer V) (kvs : List (Key × V)) : Writer V :=
  kvs.foldl (fun w kv => w.add kv.1 kv.2) { w with compiler := some (w.compiler.getD []) }

/-- `Delete`, in the compiler and in all segments. -/
def delete (w : Writer V) (k : Key) : Writer V :=
  { w with
    anyDelete := true
    compiler := w.compiler.map (· ++ [(k, none)])
    object := fun i =>
      if i ∈ w.segments then (w.object i).deleteKey (w.directory.files i) k else w.object i }

/-- `WriteToc`. -/
def writeToc (w : Writer V) : Writer V := (w.emit (.writeTocPart w.segments)).emit .renameToc

/-- The last entry for a key decides; a deleted one is not added to the generator. -/
def compiled (kvs : List (Key × Option V)) : Dictionary V :=
  fun k => ((kvs.reverse.find? fun e => e.1 == k).bind (·.2))

/-- `Compile`. -/
def compile (w : Writer V) : Writer V :=
  match w.compiler with
  | none => w
  | some kvs =>
    let p := w.nextFile
    let w := w.emit (.segment p (.writeKv (compiled kvs)))
    let w := w.setObject p (Segment.ofPath (w.directory.files p) (compiled kvs) true)
    writeToc { w with
      compiler := none
      segments := w.segments ++ [p]
      nextFile := p + 1 }

/-- `Persist` for one segment, and `ReloadDeletedKeys` if it wrote a list. -/
def persistAndReload (w : Writer V) (i : Nat) : Writer V :=
  let (persisted, ops) := (w.object i).persist
  let w := w.emitSegment i ops
  if persisted then w.setObject i ((w.object i).reloadDeletedKeys (w.directory.files i)) else w

/-- `PersistDeletes`. -/
def persistDeletes (w : Writer V) : Writer V :=
  let w := if w.anyDelete then w.segments.foldl persistAndReload w else w
  { w with anyDelete := false }

/-! ## Merging -/

/-- `FinalizeMerge`'s new list: the first segment of the job gives way to the merged one, the others
are dropped. -/
def rewriteSegments (job : List Nat) (merged : Nat) : Bool → List Nat → List Nat
  | _, [] => []
  | mergedNewSegment, s :: segments =>
    if s ∈ job then
      if mergedNewSegment then rewriteSegments job merged true segments
      else merged :: rewriteSegments job merged true segments
    else s :: rewriteSegments job merged mergedNewSegment segments

/-- `MergedSegment`: the object is built, and writes its deleted keys, when it is first asked for. -/
def buildMergedSegment (w : Writer V) (p : MergeJob) : Writer V :=
  let out := p.outputFilename
  let dictionary := ((w.directory.files out).kv.getD fun _ => none)
  let (s, ops) := Segment.ofParents dictionary (p.segments.map w.object)
  (w.emitSegment out ops).setObject out s

/-- A job that has succeeded: the list is rewritten, then the old files are removed. (A segment that
a reader still holds is loaded before; that changes nothing that is in the list.) -/
def mergeSucceeded (w : Writer V) (p : MergeJob) : Writer V :=
  let w := if w.segments.any (· ∈ p.segments) then w.buildMergedSegment p else w
  let w := writeToc { w with
    segments := rewriteSegments p.segments p.outputFilename false w.segments }
  p.segments.foldl (fun w i => w.emitSegment i Segment.removeFiles) w

/-- `MergeFailed` for all segments of a job. -/
def mergeFailed (w : Writer V) (p : MergeJob) : Writer V :=
  p.segments.foldl (fun w i =>
    let (s, ops) := (w.object i).mergeFailed
    (w.emitSegment i ops).setObject i s) w

/-- The loop of `FinalizeMerge`; a job whose thread is still to be joined stops it. -/
def finalizeJobs (w : Writer V) : List MergeJob → Option (Writer V × List MergeJob)
  | [] => some (w, [])
  | p :: ps =>
    match p.tryFinalize with
    | none => none
    | some (false, p) => (w.finalizeJobs ps).map fun r => (r.1, p :: r.2)
    | some (true, p) =>
      if p.successful then
        ((w.mergeSucceeded p).finalizeJobs ps).map fun r =>
          (r.1, { p with mergeDone := true } :: r.2)
      else ((w.mergeFailed p).finalizeJobs ps).map fun r => (r.1, p :: r.2)

/-- `FinalizeMerge`. Merged jobs are removed; `any_merge_finalized` only says that there are some. -/
def finalizeMerge (w : Writer V) : Option (Writer V) :=
  (w.finalizeJobs w.mergeJobs).map fun r =>
    { r.1 with mergeJobs := r.2.filter fun p => !p.mergeDone }

/-- `SelectMergeSegments`. -/
def selectMergeSegments (settings : IndexSettings V) (w : Writer V) : Option (List Nat) :=
  let marked := fun i => (w.object i).markedForMerge
  let deletes := fun i => ((w.object i).hasDeletedKeys (w.directory.files i)).1
  match settings.mergePolicy with
  | .simple => SimpleMergePolicy.selectMergeSegments marked deletes w.segments
  | .tiered better =>
    TieredMergePolicy.selectMergeSegments marked deletes
      (fun a b => better (a.map w.object) (b.map w.object)) w.segments

/-- The policy asks unmarked segments for their deleted keys, which loads the lists: the simple one
if there is a single candidate, the tiered one always. -/
def examined (settings : IndexSettings V) (w : Writer V) : List Nat :=
  let unmarked := w.segments.filter fun i => !(w.object i).markedForMerge
  match settings.mergePolicy with
  | .simple => if unmarked.length = 1 then unmarked else []
  | .tiered _ => unmarked

def lazyLoad (w : Writer V) (is : List Nat) : Writer V :=
  { w with object := fun i =>
      if i ∈ is then (w.object i).lazyLoadDeletedKeys (w.directory.files i) else w.object i }

/-- `ElectedForMerge` for one segment. -/
def elect (w : Writer V) (i : Nat) : Writer V :=
  let (s, ops) := (w.object i).electedForMerge
  (w.emitSegment i ops).setObject i s

/-- `RunMerge`. Whether the merge is run by a thread or a process depends on sizes that are not
modelled. -/
def runMerge (settings : IndexSettings V) (external : Bool) (w : Writer V) : Writer V :=
  if w.mergeJobs.length = settings.maxConcurrentMerges then w
  else
    match w.selectMergeSegments settings with
    | none => w.lazyLoad (w.examined settings)
    | some toMerge =>
      let w := toMerge.foldl elect (w.lazyLoad (w.examined settings))
      { w with
        mergeJobs := w.mergeJobs ++ [MergeJob.start toMerge w.nextFile external]
        nextFile := w.nextFile + 1 }

/-- `ScheduledTask`. -/
def scheduledTask (settings : IndexSettings V) (external : Bool) (w : Writer V) :
    Option (Writer V) :=
  (if w.mergeJobs.isEmpty then some w else w.finalizeMerge).map fun w =>
    let w := if w.mergeEnabled then w.runMerge settings external else w
    if w.compiler.isNone && !w.anyDelete then w else w.persistDeletes.compile

/-! ## The merge processes -/

/-- What a dictionary merge yields: the newest-wins map of its inputs without the deleted keys. -/
def mergedDictionary (inputs : List (Dictionary V × DeletedKeys)) : Dictionary V := fun k =>
  (NewestWins.newest (fun d k => (d.1 k).isSome) inputs k).bind fun d =>
    if k ∈ d.2 then none else d.1 k

/-- A running merge loads the next `.dk` list. -/
def mergeReads (w : Writer V) (j : Nat) : Option (Writer V) :=
  match w.mergeJobs[j]? with
  | none => none
  | some p =>
    match p.ended, p.segments[p.read.length]? with
    | none, some i =>
      let p := { p with read := p.read ++ [(w.directory.files i).loadDk] }
      some { w with mergeJobs := w.mergeJobs.set j p }
    | _, _ => none

/-- A running merge ends; with exit code 0 it has read everything and written its output. -/
def mergeEnds (w : Writer V) (j : Nat) (code : Int) : Option (Writer V) :=
  match w.mergeJobs[j]? with
  | none => none
  | some p =>
    if p.ended.isSome then none
    else
      let ended := { w with mergeJobs := w.mergeJobs.set j { p with ended := some code } }
      if code = 0 then
        if p.read.length = p.segments.length then
          let inputs := (p.segments.map fun i => (w.object i).dictionary).zip p.read
          some (ended.emit (.segment p.outputFilename (.writeKv (mergedDictionary inputs))))
        else none
      else some ended

/-! ## Opening and closing -/

/-- `LoadIndex`; new files are numbered from `nextFile` on. -/
def loadIndex (d : Directory V) (nextFile : Nat) : Writer V where
  compiler := none
  segments := d.toc.getD []
  mergeJobs := []
  anyDelete := false
  mergeEnabled := true
  object i := Segment.ofPath (d.files i) ((d.files i).kv.getD fun _ => none) false
  directory := d
  journal := []
  nextFile := nextFile

/-- The task that the destructor enqueues: it compiles and waits for all merges. -/
def finishPending (w : Writer V) : Option (Writer V) :=
  let w := w.compile
  (w.mergeJobs.mapM MergeJob.finalize).map fun jobs => { w with mergeJobs := jobs }

/-! ## Reading -/

/-- `operator[]` on the segments from the newest on. `GetSubscript` asks `IsFinalState` also of the
state 0 that a failed walk leaves; `atZero i` is the match that the dictionary of file `i` then gives
for a key that it does not have. -/
def find (atZero : Nat → Dictionary V) (w : Writer V) (k : Key) : List Nat → Option V
  | [] => none
  | i :: rest =>
    match ((w.object i).dictionary k).or (atZero i k) with
    | some v => if ((w.object i).isDeleted (w.directory.files i) k).1 then none else some v
    | none => w.find atZero k rest

/-- `BaseIndexReader::operator[]`. -/
def lookup (atZero : Nat → Dictionary V) (w : Writer V) (k : Key) : Option V :=
  w.find atZero k w.segments.reverse

/-- `Contains` on the segments from the newest on. -/
def containsIn (w : Writer V) (k : Key) : List Nat → Bool
  | [] => false
  | i :: rest =>
    if (w.object i).contains k then !((w.object i).isDeleted (w.directory.files i) k).1
    else w.containsIn k rest

/-- `BaseIndexReader::Contains`. -/
def contains (w : Writer V) (k : Key) : Bool := w.containsIn k w.segments.reverse

/-- A lookup loads the delete lists of the segment it finds the key in. -/
def read (w : Writer V) (k : Key) : Writer V :=
  match w.segments.reverse.find? fun i => (w.object i).contains k with
  | none => w
  | some i => w.lazyLoad [i]

/-! ## Steps -/

/-- Everything that can happen: the queued operations, the scheduled task, a reader's lookup, and
the steps of the merge with the position `j` in the list of jobs. `compile` is the task queued when
the key threshold is hit. -/
inductive Event (V : Type)
  | add (k : Key) (v : V)
  | bulkAdd (kvs : List (Key × V))
  | delete (k : Key)
  | flush
  | compile
  | scheduledTask (external : Bool)
  | read (k : Key)
  | mergeReads (j : Nat)
  | mergeEnds (j : Nat) (code : Int)
  | disableMerge
  | finishPending

def step (settings : IndexSettings V) (w : Writer V) : Event V → Option (Writer V)
  | .add k v => some (w.add k v)
  | .bulkAdd kvs => some (w.bulkAdd kvs)
  | .delete k => some (w.delete k)
  | .flush => some w.persistDeletes.compile
  | .compile => some w.compile
  | .scheduledTask external => w.scheduledTask settings external
  | .read k => some (w.read k)
  | .mergeReads j => w.mergeReads j
  | .mergeEnds j code => w.mergeEnds j code
  | .disableMerge => some { w with mergeEnabled := false }
  | .finishPending => w.finishPending

/-- A run of the writer on a new directory. -/
def runNew (settings : IndexSettings V) (events : List (Event V)) : Option (Writer V) :=
  Run.run (step settings) (loadIndex Directory.empty 0) events

end Writer
end Keyvi.Index
