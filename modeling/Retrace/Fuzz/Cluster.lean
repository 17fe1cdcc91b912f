import Retrace.Profiler.Stream
import Retrace.Journal.Writer

/-!
# Crash clusters

`cluster.c`: a failing run is filed under a digest of the last function in its trace, of the number of its
parameters and of the coverage of the run.
-/

namespace Retrace.Fuzz

open CLib Parson Profiler

structure FuzzCluster where
  id : UInt64
  func : Bytes
  params : Int32
  count : Nat := 0
  coverage : UInt64
  first_seed : UInt64
  is_crash : Bool

structure FuzzReport where
  clusters : List FuzzCluster := []
  total : Nat := 0
  crashes : Nat := 0
  assertions : Nat := 0

/-- The arguments of `fuzz_report_fold`. -/
structure FuzzRun where
  exit_status : UInt32
  trace_json : Option Bytes
  seed : UInt64
  marker : Option Bytes
  coverage : UInt64

/-- `WIFSIGNALED`: neither an exit nor a stop. -/
def FUZZ_SIGNALED (st : UInt32) : Bool := st &&& 0x7f ≠ 0 && st &&& 0x7f ≠ 0x7f

def last_func_cb (ctx : Bytes × Int32) (entry : Option JsonObject) : Bytes × Int32 :=
  let msg := json_object_get_object entry (bytes "message")
  match json_object_get_string msg (bytes "func") with
  | none | some [] => ctx
  | some f => (snprintf 64 f,
      ((json_object_get_object msg (bytes "params")).map fun po => Int32.ofNat po.length).getD 0)

def last_func (trace_json : Option Bytes) : Bytes × Int32 :=
  let ctx := match trace_json with
    | some text => (corr_stream_scan text).1.foldl last_func_cb ([], 0)
    | none => ([], 0)
  (if ctx.1 = [] then bytes "?" else ctx.1, ctx.2)

def FuzzRun.is_crash (run : FuzzRun) : Bool := FUZZ_SIGNALED run.exit_status

def FuzzRun.is_assert (run : FuzzRun) : Bool :=
  !run.is_crash && match run.marker, run.trace_json with
    | some marker, some text => (strstr text marker).isSome
    | _, _ => false

def digest (func : Bytes) (params : Int32) (coverage : UInt64) : UInt64 :=
  let id := Retraced.fnv1a func 0x811C9DC5
  let id := (id ^^^ params.toInt64.toUInt64 * 0x9E3779B97F4A7C15) * 0x01000193
  (id ^^^ coverage * 0x9E3779B97F4A7C15) * 0x01000193

def FuzzRun.signature (run : FuzzRun) : UInt64 :=
  digest (last_func run.trace_json).1 (last_func run.trace_json).2 run.coverage

/-- What `add_cluster` and its caller put into the cluster of a run. -/
def FuzzRun.new_cluster (run : FuzzRun) : FuzzCluster where
  id := run.signature
  func := (last_func run.trace_json).1
  params := (last_func run.trace_json).2
  coverage := run.coverage
  first_seed := run.seed
  is_crash := run.is_crash

/-- Counts a run in the cluster that `find_cluster` finds by its digest, or in the one that `add_cluster`
puts behind the others. -/
def count_cluster (new : FuzzCluster) : List FuzzCluster → List FuzzCluster
  | [] => [{ new with count := new.count + 1 }]
  | c :: cs => if c.id = new.id then { c with count := c.count + 1 } :: cs else c :: count_cluster new cs

/-- The report behind a run, and the digest it is filed under, 0 for a clean one. -/
def fuzz_report_fold (r : FuzzReport) (run : FuzzRun) : FuzzReport × UInt64 :=
  let r := { r with
    total := r.total + 1
    crashes := r.crashes + run.is_crash.toNat
    assertions := r.assertions + run.is_assert.toNat }
  if !run.is_crash && !run.is_assert then (r, 0)
  else ({ r with clusters := count_cluster run.new_cluster r.clusters }, run.signature)

def fuzz_report (runs : List FuzzRun) : FuzzReport := runs.foldl (fun r run => (fuzz_report_fold r run).1) {}

end Retrace.Fuzz
