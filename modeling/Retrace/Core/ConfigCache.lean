import Retrace.Json.Parson

/-!
# The config cache

`config_cache.c`: the scripts of a config with a function name of their own, in the order of the
config, with an open-addressing hash index over their names. A snapshot is built whole and then
installed by one store.
-/

namespace Retrace.Core

open CLib Parson

def CONFIG_CACHE_MAX_ENTRIES : Nat := 256

structure CacheEntry where
  func_name : Bytes
  script : JsonObject

/-- `struct cache_snap`. Without buckets (`nbuckets = 0`) the entries are searched one by one. -/
structure CacheSnap where
  entries : List CacheEntry
  /-- Indices into the entries, counted from 1; 0 is an empty bucket. -/
  buckets : List UInt32

def name_hash (s : Bytes) : UInt32 :=
  s.foldl (fun h c => (h ^^^ c.toUInt32) * 16777619) 2166136261

def cache_entry (script : JsonValue) : Option CacheEntry :=
  match json_value_get_object script with
  | none => none
  | some o =>
    match json_object_get_string (some o) (bytes "func_name") with
    | none => none
    | some name => if name = [] ∨ name = bytes "*" then none else some ⟨name, o⟩

def bucket_count (target : Nat) : Nat → Nat → Nat
  | 0, nb => nb
  | fuel + 1, nb => if nb < target then bucket_count target fuel (2 * nb) else nb

def bucket_store (idx : UInt32) : Nat → Nat → List UInt32 → List UInt32
  | 0, _, buckets => buckets
  | fuel + 1, b, buckets =>
    if buckets.getD b 0 ≠ 0 then bucket_store idx fuel ((b + 1) &&& (buckets.length - 1)) buckets
    else buckets.set b idx

def bucket_index : Nat → List CacheEntry → List UInt32 → List UInt32
  | _, [], buckets => buckets
  | i, e :: es, buckets =>
    bucket_index (i + 1) es (bucket_store (i + 1).toUInt32 buckets.length
      ((name_hash e.func_name).toNat &&& (buckets.length - 1)) buckets)

structure CacheAlloc where
  snap_ok : Bool
  buckets_ok : Bool

/-- `retrace_config_cache_build`: the snapshot it installs; `none` is the result -1, which leaves the
snapshot in force. -/
def retrace_config_cache_build (alloc : CacheAlloc) (conf : Option JsonObject) : Option CacheSnap :=
  match conf with
  | none => none
  | some conf =>
    match json_object_get_array (some conf) (bytes "intercept_scripts") with
    | none => none
    | some scripts =>
      if alloc.snap_ok then
        let entries := (scripts.filterMap cache_entry).take CONFIG_CACHE_MAX_ENTRIES
        let nb := bucket_count (entries.length * 4) (entries.length * 4) 8
        some ⟨entries,
          if alloc.buckets_ok then bucket_index 0 entries (List.replicate nb 0) else []⟩
      else none

/-- The probe loop of `retrace_config_cache_lookup` from the bucket `b` on; `none` when it goes on. -/
def bucket_lookup (snap : CacheSnap) (func_name : Bytes) : Nat → Nat → Option (Option JsonObject)
  | 0, _ => none
  | fuel + 1, b =>
    let idx := snap.buckets.getD b 0
    if idx = 0 then some none
    else
      match snap.entries[idx.toNat - 1]? with
      | none => none
      | some e =>
        if e.func_name = func_name then some (some e.script)
        else bucket_lookup snap func_name fuel ((b + 1) &&& (snap.buckets.length - 1))

/-- `retrace_config_cache_lookup`; `none` when the loop over the buckets does not end. -/
def retrace_config_cache_lookup (snap : Option CacheSnap) (func_name : Bytes) : Option (Option JsonObject) :=
  match snap with
  | none => some none
  | some snap =>
    if 0 < snap.buckets.length then
      bucket_lookup snap func_name snap.buckets.length
        ((name_hash func_name).toNat &&& (snap.buckets.length - 1))
    else some ((snap.entries.find? (·.func_name = func_name)).map CacheEntry.script)

end Retrace.Core
