import Retrace.Core.ScriptResolver
import Retrace.Probing.Probing
import Retrace.Json.Equality

/-!
# The script of the config cache and the script of the scan

The index over the names is a table with linear probing, so the lookup finds the first script in the config
with a name. The scan does not always choose that one: a wildcard in front of it or behind it, or a script
behind it that asks for this very call, goes before it.
-/

namespace Retrace.Core

open CLib Parson List Option

variable {snap : CacheSnap} {entries : List CacheEntry} {front : List JsonValue} {n : Nat}
  {script : JsonObject} {v : JsonValue}

theorem bucket_count_spec (target fuel j : Nat) (h : target ≤ 2 ^ (j + fuel)) :
    ∃ k, bucket_count target fuel (2 ^ j) = 2 ^ k ∧ j ≤ k ∧ target ≤ 2 ^ k := by
  induction fuel generalizing j with
  | zero => exact ⟨j, rfl, le_refl j, h⟩
  | succ fuel ih =>
    rw [bucket_count]
    split_ifs with hlt
    · obtain ⟨k, hk, hjk, htarget⟩ := ih (j + 1) (by rwa [Nat.add_right_comm, Nat.add_assoc])
      rw [Nat.pow_succ, Nat.mul_comm] at hk
      exact ⟨k, hk, by omega, htarget⟩
    · exact ⟨j, rfl, le_refl j, by omega⟩

theorem bucket_store_eq
    (hlen : buckets.length = 2 ^ k) : bucket_store idx fuel b buckets = Probing.store 0 idx fuel b buckets := by
  induction fuel generalizing b with
  | zero => rfl
  | succ fuel ih =>
    rw [bucket_store, Probing.store, ih, hlen, Nat.and_two_pow_sub_one_eq_mod]

def indices (n : Nat) : List UInt32 := (range n).map fun i => (i + 1).toUInt32

theorem indices_succ : indices (n + 1) = indices n ++ [(n + 1).toUInt32] := by
  rw [indices, range_succ, map_append]
  rfl

def home (entries : List CacheEntry) (idx : UInt32) : Nat :=
  ((entries[idx.toNat - 1]?).map fun e => (name_hash e.func_name).toNat).getD 0

theorem toNat_index (h : n ≤ CONFIG_CACHE_MAX_ENTRIES) : n.toUInt32.toNat = n := by
  rw [UInt32.toNat_ofNat']
  exact Nat.mod_eq_of_lt (lt_of_le_of_lt h (by decide))

theorem bucket_index_stores {front es : List CacheEntry} {buckets : List UInt32}
    (hlen : buckets.length = 2 ^ k) (hfit : (front ++ es).length < 2 ^ k)
    (hmax : (front ++ es).length ≤ CONFIG_CACHE_MAX_ENTRIES)
    (h : Probing.Stores 0 (home (front ++ es)) (indices front.length) buckets) :
    Probing.Stores 0 (home (front ++ es)) (indices (front ++ es).length) (bucket_index front.length es buckets) ∧
      (bucket_index front.length es buckets).length = 2 ^ k := by
  induction es generalizing front buckets with
  | nil =>
    rw [append_nil] at h ⊢
    exact ⟨h, hlen⟩
  | cons e es ih =>
    have hfront : front ++ e :: es = (front ++ [e]) ++ es := by simp
    have hidx : (front.length + 1).toUInt32.toNat = front.length + 1 :=
      toNat_index (by rw [length_append, length_cons] at hmax; omega)
    have hhome : home (front ++ e :: es) (front.length + 1).toUInt32 = (name_hash e.func_name).toNat := by
      rw [home, hidx]
      simp
    have hne : (front.length + 1).toUInt32 ≠ 0 := by
      intro heq
      rw [heq] at hidx
      simp at hidx
    have hroom : (indices front.length).length < buckets.length := by
      rw [length_append, length_cons] at hfit
      rw [indices, length_map, length_range, hlen]
      omega
    obtain ⟨hstored, hlen'⟩ := h.store hroom hne
    rw [← indices_succ, hhome] at hstored
    rw [hhome] at hlen'
    have hmask : (name_hash e.func_name).toNat &&& (buckets.length - 1) =
        (name_hash e.func_name).toNat % buckets.length := by
      rw [hlen, Nat.and_two_pow_sub_one_eq_mod]
    rw [bucket_index, bucket_store_eq hlen, hmask]
    rw [hfront] at hfit hmax hstored ⊢
    have hsnoc : (front ++ [e]).length = front.length + 1 := by simp
    have := ih (hlen'.trans hlen) hfit hmax (by rwa [hsnoc])
    rwa [hsnoc] at this

def named (entries : List CacheEntry) (func_name : Bytes) (idx : UInt32) : Bool :=
  (entries[idx.toNat - 1]?).any (·.func_name = func_name)

theorem bucket_lookup_eq (func_name : Bytes) (hlen : snap.buckets.length = 2 ^ k)
    (hmem : ∀ idx ∈ snap.buckets, idx = 0 ∨ ∃ e, snap.entries[idx.toNat - 1]? = some e) :
    bucket_lookup snap func_name fuel b =
      (Probing.find 0 (named snap.entries func_name) snap.buckets fuel b).map fun idx =>
        if idx = 0 then none else (snap.entries[idx.toNat - 1]?).map CacheEntry.script := by
  induction fuel generalizing b with
  | zero => rfl
  | succ fuel ih =>
    obtain ⟨idx, hget⟩ : ∃ idx, snap.buckets.getD b 0 = idx := ⟨_, rfl⟩
    rw [bucket_lookup, Probing.find, hget]
    by_cases hidx : idx = 0
    · rw [if_pos hidx, if_pos hidx]
      simp
    · have hb : idx ∈ snap.buckets := by
        rw [getD_eq_getElem?_getD] at hget
        cases hb : snap.buckets[b]? with
        | none => exact absurd (by simpa [hb] using hget.symm) hidx
        | some x =>
          obtain rfl : x = idx := by simpa [hb] using hget
          exact mem_of_getElem? hb
      obtain ⟨e, he⟩ := (hmem _ hb).resolve_left hidx
      rw [if_neg hidx, if_neg hidx, he]
      simp only [named, he, any_some]
      by_cases hname : e.func_name = func_name
      · simp [hname, hidx, he]
      · simp only [hname, decide_false, Bool.false_eq_true, if_false]
        rw [ih, hlen, Nat.and_two_pow_sub_one_eq_mod]

theorem mem_indices (hmax : n ≤ CONFIG_CACHE_MAX_ENTRIES) (h : idx ∈ indices n) : ∃ i < n, idx.toNat = i + 1 := by
  obtain ⟨i, hi, rfl⟩ := mem_map.mp h
  rw [mem_range] at hi
  exact ⟨i, hi, toNat_index (by omega)⟩

theorem find_range (q : α → Bool) (l : List α) :
    ((range l.length).find? fun i => (l[i]?).any q).bind (fun i => l[i]?) = l.find? q := by
  induction l with
  | nil => rfl
  | cons a l ih =>
    rw [length_cons, range_succ_eq_map, find?_cons, find?_cons]
    cases hq : q a with
    | true => simp [hq]
    | false =>
      simp only [getElem?_cons_zero, any_some, hq, find?_map, Function.comp_def,
        Nat.succ_eq_add_one, getElem?_cons_succ, bind_map]
      exact ih

theorem find_indices (hmax : entries.length ≤ CONFIG_CACHE_MAX_ENTRIES) (func_name : Bytes) :
    ((indices entries.length).find? (named entries func_name)).bind (fun idx => entries[idx.toNat - 1]?) =
      entries.find? (·.func_name = func_name) := by
  have hnat : ∀ i ∈ range entries.length, (i + 1).toUInt32.toNat - 1 = i := by
    intro i hi
    rw [toNat_index (by rw [mem_range] at hi; omega), Nat.add_sub_cancel]
  have hpred : ∀ i ∈ range entries.length, (named entries func_name ∘ fun i => (i + 1).toUInt32) i =
      (entries[i]?).any (fun e => decide (e.func_name = func_name)) := by
    intro i hi
    simp only [Function.comp, named, hnat i hi]
  rw [indices, find?_map, bind_map, find?_congr hpred,
    ← find_range (fun e : CacheEntry => decide (e.func_name = func_name)) entries]
  refine bind_congr fun i hi => ?_
  rw [Function.comp, hnat i (mem_of_find?_eq_some hi)]

theorem bucket_lookup_stores (hmax : entries.length ≤ CONFIG_CACHE_MAX_ENTRIES) (hlen : buckets.length = 2 ^ k)
    (hfit : entries.length < 2 ^ k) (h : Probing.Stores 0 (home entries) (indices entries.length) buckets)
    (func_name : Bytes) : bucket_lookup ⟨entries, buckets⟩ func_name buckets.length
        ((name_hash func_name).toNat &&& (buckets.length - 1)) =
      some ((entries.find? (·.func_name = func_name)).map CacheEntry.script) := by
  have hmem : ∀ idx ∈ buckets, idx = 0 ∨ ∃ e, entries[idx.toNat - 1]? = some e := by
    intro idx hidx
    refine (h.mem idx hidx).imp_right fun hidx => ?_
    obtain ⟨i, hi, hidx⟩ := mem_indices hmax hidx
    exact ⟨entries[i], by rw [hidx, Nat.add_sub_cancel, getElem?_eq_getElem hi]⟩
  have hhome : ∀ idx ∈ indices entries.length, named entries func_name idx = true →
      home entries idx = (name_hash func_name).toNat := by
    intro idx _ hidx
    cases he : entries[idx.toNat - 1]? with
    | none => simp [named, he] at hidx
    | some e =>
      have hname : e.func_name = func_name := by simpa [named, he] using hidx
      rw [home, he, map_some, getD_some, hname]
  have hroom : (indices entries.length).length < buckets.length := by
    rwa [indices, length_map, length_range, hlen]
  have hmask : (name_hash func_name).toNat &&& (buckets.length - 1) =
      (name_hash func_name).toNat % buckets.length := by
    rw [hlen, Nat.and_two_pow_sub_one_eq_mod]
  rw [bucket_lookup_eq func_name hlen hmem, hmask, h.find hroom hhome, map_some, ← find_indices hmax func_name]
  cases hfind : (indices entries.length).find? (named entries func_name) with
  | none => rfl
  | some idx =>
    obtain ⟨i, -, hidx⟩ := mem_indices hmax (mem_of_find?_eq_some hfind)
    have hne : idx ≠ 0 := by
      rintro rfl
      simp at hidx
    rw [getD_some, if_neg hne, bind_some]

theorem cache_lookup_eq {conf : JsonObject} {scripts : List JsonValue}
    (hscripts : json_object_get_array (some conf) (bytes "intercept_scripts") = some scripts)
    (hbuild : retrace_config_cache_build alloc (some conf) = some snap) (func_name : Bytes) :
    retrace_config_cache_lookup (some snap) func_name =
      some ((((scripts.filterMap cache_entry).take CONFIG_CACHE_MAX_ENTRIES).find?
        (·.func_name = func_name)).map CacheEntry.script) := by
  simp only [retrace_config_cache_build, hscripts] at hbuild
  split_ifs at hbuild with hsnap hbuckets
  · obtain ⟨entries, hentries⟩ :
      ∃ entries, (scripts.filterMap cache_entry).take CONFIG_CACHE_MAX_ENTRIES = entries := ⟨_, rfl⟩
    have hmax : entries.length ≤ CONFIG_CACHE_MAX_ENTRIES := by
      rw [← hentries]
      exact length_take_le _ _
    rw [hentries] at hbuild ⊢
    obtain ⟨k, hk, h3, hroom⟩ := bucket_count_spec (entries.length * 4) (entries.length * 4) 3
      (Nat.lt_two_pow_self.le.trans (Nat.pow_le_pow_right (by norm_num) (by omega)))
    have hpos : 2 ^ 3 ≤ 2 ^ k := Nat.pow_le_pow_right (by norm_num) h3
    have hempty : (replicate (2 ^ k) (0 : UInt32)).length = 2 ^ k := length_replicate
    obtain ⟨hstores, hlen⟩ :=
      @bucket_index_stores k [] entries _ hempty (by rw [nil_append]; omega) hmax (Probing.stores_nil 0 _ _)
    rw [show (8 : Nat) = 2 ^ 3 by norm_num, hk] at hbuild
    obtain rfl := (some.inj hbuild).symm
    rw [length_nil] at hlen hstores
    rw [retrace_config_cache_lookup, if_pos (by simp only [hlen]; omega)]
    exact bucket_lookup_stores hmax hlen (by omega) hstores func_name
  · obtain rfl := (some.inj hbuild).symm
    rfl

def script_name (v : JsonValue) : Option Bytes :=
  json_object_get_string (json_value_get_object v) (bytes "func_name")

def wildcard (v : JsonValue) : Prop := script_name v = some (bytes "*")

instance (v : JsonValue) : Decidable (wildcard v) := inferInstanceAs (Decidable (_ = _))

def Overrides (dladdr : UInt64 → Option DlInfo) (ret_addr : UInt64) (func_name : Bytes) (v : JsonValue) : Prop :=
  wildcard v ∨ script_name v = some func_name ∧
    (eval_caller_matches dladdr ret_addr (json_value_get_object v) = some true ∨
      eval_caller_matches dladdr ret_addr (json_value_get_object v) = none ∧
        json_object_get_number (json_value_get_object v) (bytes "return_addr") ≠ 0 ∧
        ret_addr.toInt64 = doubleToLong (json_object_get_number (json_value_get_object v) (bytes "return_addr")))

section

variable {dladdr : UInt64 → Option DlInfo} {ret_addr : UInt64} {func_name : Bytes}

theorem script_scan_wildcard (hv : wildcard v) :
    script_scan dladdr ret_addr func_name cand (v :: rest) = json_value_get_object v := by
  have hname : json_object_get_string (json_value_get_object v) (bytes "func_name") = some (bytes "*") := hv
  rw [script_scan]
  simp only [hname, if_true]

theorem script_scan_other (hv : ¬ wildcard v) (hname : script_name v ≠ some func_name)
    (cand : Option JsonObject) (rest : List JsonValue) :
    script_scan dladdr ret_addr func_name cand (v :: rest) = script_scan dladdr ret_addr func_name cand rest := by
  rw [script_scan]
  cases hfunc : json_object_get_string (json_value_get_object v) (bytes "func_name") with
  | none => rfl
  | some i_func =>
    have hstar : i_func ≠ bytes "*" := by
      rintro rfl
      exact hv hfunc
    have hother : i_func ≠ func_name := by
      rintro rfl
      exact hname hfunc
    simp only [if_neg hstar, if_neg hother]

theorem script_scan_cons (hret : ret_addr ≠ 0) : Overrides dladdr ret_addr func_name v ∧
        script_scan dladdr ret_addr func_name (some cand) (v :: rest) = json_value_get_object v ∨
      ¬ Overrides dladdr ret_addr func_name v ∧ script_scan dladdr ret_addr func_name (some cand) (v :: rest) =
        script_scan dladdr ret_addr func_name (some cand) rest := by
  rw [script_scan]
  unfold Overrides wildcard script_name
  cases hname : json_object_get_string (json_value_get_object v) (bytes "func_name") with
  | none => simp
  | some name =>
    by_cases hstar : name = bytes "*"
    · simp [hstar]
    · by_cases hfunc : name = func_name
      · cases heval : eval_caller_matches dladdr ret_addr (json_value_get_object v) with
        | none =>
          simp only [if_neg hret, some_or, some.injEq, hfunc]
          split_ifs <;> simp_all
        | some b => cases b <;> simp_all
      · simp [hstar, hfunc]

theorem script_scan_some (hret : ret_addr ≠ 0) (cand : JsonObject) (rest : List JsonValue) :
    (∀ u ∈ rest, ¬ Overrides dladdr ret_addr func_name u) ∧
        script_scan dladdr ret_addr func_name (some cand) rest = some cand ∨
      ∃ u ∈ rest, Overrides dladdr ret_addr func_name u ∧
        script_scan dladdr ret_addr func_name (some cand) rest = json_value_get_object u := by
  induction rest with
  | nil => exact .inl ⟨by simp, rfl⟩
  | cons v rest ih =>
    obtain ⟨hv, hscan⟩ | ⟨hv, hscan⟩ := script_scan_cons hret
    · exact .inr ⟨v, mem_cons_self, hv, hscan⟩
    · rw [hscan]
      rcases ih with ⟨hnone, hscan⟩ | ⟨u, hu, hover, hscan⟩
      · exact .inl ⟨forall_mem_cons.mpr ⟨hv, hnone⟩, hscan⟩
      · exact .inr ⟨u, mem_cons_of_mem v hu, hover, hscan⟩

theorem script_scan_front {front : List JsonValue} (hfront : ∀ u ∈ front, script_name u ≠ some func_name)
    (cand : Option JsonObject) (rest : List JsonValue) :
    (∀ u ∈ front, ¬ wildcard u) ∧ script_scan dladdr ret_addr func_name cand (front ++ rest) =
        script_scan dladdr ret_addr func_name cand rest ∨ ∃ u ∈ front, wildcard u ∧
        script_scan dladdr ret_addr func_name cand (front ++ rest) = json_value_get_object u := by
  induction front with
  | nil => exact .inl ⟨by simp, rfl⟩
  | cons v front ih =>
    obtain ⟨hv, hfront⟩ := forall_mem_cons.mp hfront
    by_cases hwild : wildcard v
    · exact .inr ⟨v, mem_cons_self, hwild, script_scan_wildcard hwild⟩
    · rw [cons_append, script_scan_other hwild hv]
      rcases ih hfront with ⟨hnone, hscan⟩ | ⟨u, hu, hover, hscan⟩
      · exact .inl ⟨forall_mem_cons.mpr ⟨hwild, hnone⟩, hscan⟩
      · exact .inr ⟨u, mem_cons_of_mem v hu, hover, hscan⟩

theorem cache_entry_some (h : cache_entry v = some e) :
    json_value_get_object v = some e.script ∧ script_name v = some e.func_name ∧ e.func_name ≠ bytes "*" ∧
      e.func_name ≠ [] := by
  rw [cache_entry] at h
  cases hobj : json_value_get_object v with
  | none => simp [hobj] at h
  | some o =>
    simp only [hobj] at h
    cases hname : json_object_get_string (some o) (bytes "func_name") with
    | none => simp [hname] at h
    | some name =>
      simp only [hname] at h
      split_ifs at h with hskip
      obtain rfl := some.inj h
      exact ⟨rfl, by rw [script_name, hobj, hname], fun heq => hskip (.inr heq),
        fun heq => hskip (.inl heq)⟩

theorem script_scan_unconstrained
    (hv : cache_entry v = some ⟨func_name, script⟩) (hplain : unconstrained script = true)
      (rest : List JsonValue) :
    script_scan dladdr ret_addr func_name none (v :: rest) =
      if ret_addr = 0 then some script else script_scan dladdr ret_addr func_name (some script) rest := by
  obtain ⟨hobj, hname, hstar, -⟩ := cache_entry_some hv
  have hfunc : json_object_get_string (some script) (bytes "func_name") = some func_name := by
    rwa [script_name, hobj] at hname
  rw [unconstrained, Bool.and_eq_true, isNone_iff_eq_none, beq_iff_eq] at hplain
  rw [script_scan]
  simp only [hobj, hfunc, if_neg hstar, if_true, eval_caller_matches, hplain.1, hplain.2, none_or]

theorem Overrides.ne {u : JsonValue} (hu : Overrides dladdr ret_addr func_name u)
    (hv : cache_entry v = some ⟨func_name, script⟩) (hplain : unconstrained script = true) :
    json_value_get_object u ≠ some script := by
  intro heq
  obtain ⟨hobj, hname, hstar, -⟩ := cache_entry_some hv
  rw [unconstrained, Bool.and_eq_true, isNone_iff_eq_none, beq_iff_eq] at hplain
  rcases hu with hwild | ⟨-, htrue | ⟨-, hne, -⟩⟩
  · rw [wildcard, script_name, heq, ← hobj] at hwild
    exact hstar (some.inj (hname.symm.trans hwild))
  · rw [heq, eval_caller_matches, hplain.1] at htrue
    cases htrue
  · rw [heq] at hne
    exact hne hplain.2

theorem script_scan_first_iff {back : List JsonValue}
    (hfront : ∀ u ∈ front, script_name u ≠ some func_name) (hv : cache_entry v = some ⟨func_name, script⟩)
    (hplain : unconstrained script = true) :
    script_scan dladdr ret_addr func_name none (front ++ v :: back) = some script ↔
      (∀ u ∈ front, ¬ wildcard u) ∧ (ret_addr = 0 ∨ ∀ u ∈ back, ¬ Overrides dladdr ret_addr func_name u) := by
  rcases @script_scan_front dladdr ret_addr _ _ hfront none (v :: back) with ⟨hnone, hscan⟩ | ⟨u, hu, hwild, hscan⟩
  · rw [hscan, script_scan_unconstrained hv hplain]
    by_cases hret : ret_addr = 0
    · rw [if_pos hret]
      exact iff_of_true rfl ⟨hnone, .inl hret⟩
    · rw [if_neg hret]
      rcases @script_scan_some dladdr ret_addr func_name hret script back with ⟨hback, hscan⟩ | ⟨u,
        hu, hover, hscan⟩
      · exact iff_of_true hscan ⟨hnone, .inr hback⟩
      · rw [hscan]
        refine iff_of_false (hover.ne hv hplain) ?_
        rintro ⟨-, hzero | hback⟩
        · exact hret hzero
        · exact hback u hu hover
  · rw [hscan]
    refine iff_of_false (Overrides.ne (.inl hwild : Overrides dladdr ret_addr func_name u) hv hplain) ?_
    rintro ⟨hnone, -⟩
    exact hnone u hu hwild

end

theorem find_take_filterMap (f : α → Option β) (q : β → Bool) (l : List α) (n : Nat) (b : β) :
    ((l.filterMap f).take n).find? q = some b ↔
      ∃ front a back, l = front ++ a :: back ∧ f a = some b ∧ q b = true ∧
        (∀ c ∈ front.filterMap f, q c = false) ∧ (front.filterMap f).length < n := by
  rw [find?_eq_some_iff_append]
  constructor
  · rintro ⟨hb, as, bs, htake, has⟩
    have hsplit : l.filterMap f = as ++ b :: (bs ++ (l.filterMap f).drop n) := by
      conv_lhs => rw [← take_append_drop n (l.filterMap f), htake]
      simp
    obtain ⟨l₁, l₂, rfl, rfl, h₂⟩ := filterMap_eq_append_iff.mp hsplit
    obtain ⟨l₃, a, back, rfl, hnone, ha, -⟩ := filterMap_eq_cons_iff.mp h₂
    have hl₃ : l₃.filterMap f = [] := filterMap_eq_nil_iff.mpr hnone
    have hlen : (l₁.filterMap f).length < n := by
      have := congrArg List.length htake
      rw [length_take, length_append, length_cons] at this
      omega
    refine ⟨l₁ ++ l₃, a, back, by simp, ha, hb, ?_, ?_⟩
    · rw [filterMap_append, hl₃, append_nil]
      simpa using has
    · rwa [filterMap_append, hl₃, append_nil]
  · rintro ⟨front, a, back, rfl, ha, hb, hfront, hlen⟩
    refine ⟨hb, front.filterMap f, (back.filterMap f).take (n - (front.filterMap f).length - 1), ?_, ?_⟩
    · rw [filterMap_append, filterMap_cons, ha, take_append, take_of_length_le hlen.le, take_cons (by omega)]
    · simpa using hfront

/-- The entry `v` is the object `script`, with a name of its own: not empty and not the wildcard. -/
structure Names (v : JsonValue) (name : Bytes) (script : JsonObject) : Prop where
  object : v = .object script
  func_name : script.lookup (bytes "func_name") = some (.string name)
  nonempty : name ≠ []
  not_star : name ≠ bytes "*"

/-- The object `script` is the first entry with the name `func_name`, and there are fewer than 256 entries with
names in front of it. -/
def FirstNamed (scripts : List JsonValue) (func_name : Bytes) (script : JsonObject) : Prop :=
  ∃ front v back, scripts = front ++ v :: back ∧ Names v func_name script ∧
    (∀ u ∈ front, ∀ other, ¬ Names u func_name other) ∧
    ∀ us, us <+ front → (∀ u ∈ us, ∃ name other, Names u name other) → us.length < CONFIG_CACHE_MAX_ENTRIES

theorem cache_entry_iff : cache_entry v = some ⟨name, script⟩ ↔ Names v name script := by
  constructor
  · intro h
    obtain ⟨hobj, hname, hstar, hne⟩ := cache_entry_some h
    rw [script_name, hobj] at hname
    cases v with
    | object o =>
      obtain rfl := some.inj hobj
      refine ⟨rfl, ?_, hne, hstar⟩
      rw [json_object_get_string, json_object_get_value, bind_some] at hname
      split at hname
      · rename_i heq
        rw [heq, some.inj hname]
      · cases hname
    | _ => cases hobj
  · rintro ⟨rfl, hname, hne, hstar⟩
    simp [cache_entry, json_value_get_object, json_object_get_string, json_object_get_value, hname, hne, hstar]

/-- `FirstNamed` as the builder counts. -/
def FirstEntry (scripts : List JsonValue) (func_name : Bytes) (script : JsonObject) : Prop :=
  ∃ front v back, scripts = front ++ v :: back ∧ cache_entry v = some ⟨func_name, script⟩ ∧
    (∀ e ∈ front.filterMap cache_entry, e.func_name ≠ func_name) ∧
    (front.filterMap cache_entry).length < CONFIG_CACHE_MAX_ENTRIES

theorem length_entries_lt_iff (n : Nat) : (front.filterMap cache_entry).length < n ↔
    ∀ us, us <+ front → (∀ u ∈ us, ∃ name other, Names u name other) → us.length < n := by
  constructor
  · intro hlt us hsub hnamed
    have hlen : (us.filterMap cache_entry).length = us.length := by
      refine filterMap_length_eq_length.mpr fun u hu => ?_
      obtain ⟨name, other, h⟩ := hnamed u hu
      rw [cache_entry_iff.mpr h]
      rfl
    exact hlen ▸ (hsub.filterMap cache_entry).length_le.trans_lt hlt
  · intro h
    rw [length_filterMap_eq_countP, countP_eq_length_filter]
    refine h _ filter_sublist fun u hu => ?_
    obtain ⟨e, he⟩ := isSome_iff_exists.mp (mem_filter.mp hu).2
    exact ⟨e.func_name, e.script, cache_entry_iff.mp he⟩

theorem firstEntry_iff : FirstEntry scripts func_name script ↔ FirstNamed scripts func_name script := by
  refine exists_congr fun front => exists_congr fun v => exists_congr fun back => ?_
  rw [cache_entry_iff, length_entries_lt_iff]
  have hnames : (∀ e ∈ front.filterMap cache_entry, e.func_name ≠ func_name) ↔
      ∀ u ∈ front, ∀ other, ¬ Names u func_name other := by
    constructor
    · intro h u hu other hnames
      exact h _ (mem_filterMap.mpr ⟨u, hu, cache_entry_iff.mpr hnames⟩) rfl
    · rintro h ⟨name, other⟩ he rfl
      obtain ⟨u, hu, hentry⟩ := mem_filterMap.mp he
      exact h u hu other (cache_entry_iff.mp hentry)
  rw [hnames]

theorem find_entries_iff (scripts : List JsonValue) (func_name : Bytes) (script : JsonObject) :
    ((scripts.filterMap cache_entry).take CONFIG_CACHE_MAX_ENTRIES).find? (·.func_name = func_name) =
      some ⟨func_name, script⟩ ↔ FirstEntry scripts func_name script := by
  have h := find_take_filterMap cache_entry (·.func_name = func_name) scripts CONFIG_CACHE_MAX_ENTRIES
    ⟨func_name, script⟩
  simp only [decide_eq_true_eq, decide_eq_false_iff_not, true_and] at h
  exact h

/-- A lookup ends, and its answer is the first script with the name or none, with the buckets and without. -/
theorem config_cache_lookup_first (alloc : CacheAlloc) (conf : JsonObject) (scripts : List JsonValue)
    (snap : CacheSnap) (hscripts : json_object_get_array (some conf) (bytes "intercept_scripts") = some scripts)
    (hbuild : retrace_config_cache_build alloc (some conf) = some snap) (func_name : Bytes) :
    ∃ hit, retrace_config_cache_lookup (some snap) func_name = some hit ∧
      (∀ script, hit = some script ↔ FirstNamed scripts func_name script) ∧
      (hit = none ↔ ∀ script, ¬ FirstNamed scripts func_name script) := by
  have hentries := fun script => (find_entries_iff scripts func_name script).trans firstEntry_iff
  refine ⟨_, cache_lookup_eq hscripts hbuild func_name, ?_⟩
  cases hfind : ((scripts.filterMap cache_entry).take CONFIG_CACHE_MAX_ENTRIES).find?
    (·.func_name = func_name) with
  | none =>
    have hnone : ∀ script, ¬ FirstNamed scripts func_name script := by
      intro script hfirst
      rw [← hentries, hfind] at hfirst
      cases hfirst
    refine ⟨fun script => iff_of_false (by simp) (hnone script), iff_of_true rfl hnone⟩
  | some e =>
    obtain ⟨name, first⟩ := e
    obtain rfl : name = func_name := by simpa using find?_some hfind
    have hfirst := (hentries first).mp hfind
    refine ⟨fun script => ?_, iff_of_false (by simp) fun hnone => hnone first hfirst⟩
    rw [← hentries, hfind]
    simp

theorem names_of_entries {func_name : Bytes} (hv : cache_entry v = some ⟨func_name, script⟩)
    (hfront : ∀ e ∈ front.filterMap cache_entry, e.func_name ≠ func_name) :
    ∀ u ∈ front, script_name u ≠ some func_name := by
  intro u hu hname
  obtain ⟨-, -, hstar, hne⟩ := cache_entry_some hv
  rw [script_name] at hname
  cases hobj : json_value_get_object u with
  | none => simp [hobj, json_object_get_string, json_object_get_value] at hname
  | some o =>
    rw [hobj] at hname
    have hentry : cache_entry u = some ⟨func_name, o⟩ := by
      simp only [cache_entry, hobj, hname]
      rw [if_neg]
      rintro (h | h)
      · exact hne h
      · exact hstar h
    exact hfront _ (mem_filterMap.mpr ⟨u, hu, hentry⟩) rfl

/-- Nothing goes before the script that the cache answers with: no wildcard is in front of it, and when the
call has a return address nothing behind it overrides it. -/
def Unshadowed (dladdr : UInt64 → Option DlInfo) (ret_addr : UInt64) (scripts : List JsonValue)
    (func_name : Bytes) :
    Prop :=
  ∀ front v back script, scripts = front ++ v :: back → cache_entry v = some ⟨func_name, script⟩ →
    (∀ e ∈ front.filterMap cache_entry, e.func_name ≠ func_name) →
    (front.filterMap cache_entry).length < CONFIG_CACHE_MAX_ENTRIES → unconstrained script = true →
      (∀ u ∈ front, ¬ wildcard u) ∧ (ret_addr = 0 ∨ ∀ u ∈ back, ¬ Overrides dladdr ret_addr func_name u)

/-- The cache and the scan choose the same script exactly when nothing goes before the one in the cache. -/
theorem script_find_eq_scan_iff (dladdr : UInt64 → Option DlInfo) (ret_addr : UInt64) (alloc : CacheAlloc)
    (conf : JsonObject) (scripts : List JsonValue) (snap : CacheSnap)
    (hscripts : json_object_get_array (some conf) (bytes "intercept_scripts") = some scripts)
    (hbuild : retrace_config_cache_build alloc (some conf) = some snap) (func_name : Bytes) :
    retrace_script_find dladdr ret_addr (some snap) scripts func_name =
        some (script_scan dladdr ret_addr func_name none scripts) ↔
      Unshadowed dladdr ret_addr scripts func_name := by
  have hcached := find_entries_iff scripts func_name
  rw [retrace_script_find, cache_lookup_eq hscripts hbuild]
  constructor
  · intro hfind front v back script hsplit hv hfront hlen hplain
    rw [(hcached script).mpr ⟨front, v, back, hsplit, hv, hfront, hlen⟩] at hfind
    simp only [map_some, if_pos hplain, some.injEq] at hfind
    rw [hsplit] at hfind
    exact (script_scan_first_iff (names_of_entries hv hfront) hv hplain).mp hfind.symm
  · intro h
    cases hfind : ((scripts.filterMap cache_entry).take CONFIG_CACHE_MAX_ENTRIES).find?
        (·.func_name = func_name) with
    | none => rfl
    | some e =>
      obtain ⟨name, script⟩ := e
      obtain rfl : name = func_name := by simpa using find?_some hfind
      obtain ⟨front, v, back, hsplit, hv, hfront, hlen⟩ := (hcached script).mp hfind
      simp only [map_some]
      split_ifs with hplain
      · have := (script_scan_first_iff (names_of_entries hv hfront) hv hplain).mpr
          (h front v back script hsplit hv hfront hlen hplain)
        rw [hsplit, this]
      · rfl

def named_script (name : Bytes) : JsonObject := [(bytes "func_name", .string name)]

def scripts_conf (names : List Bytes) : JsonObject :=
  [(bytes "intercept_scripts", .array (names.map fun name => .object (named_script name)))]

theorem names_named_script (h : Names (.object (named_script name)) name' other) :
    name' = name ∧ other = named_script name := by
  obtain ⟨hobj, hname, -, -⟩ := h
  obtain rfl := JsonValue.object.inj hobj
  rw [named_script, lookup_cons_self, some.injEq, JsonValue.string.injEq] at hname
  exact ⟨hname.symm, rfl⟩

/-- The cache of scripts for `open` and `close` has a script for `close` and none for `read`. -/
theorem config_cache_lookup_close :
    ∃ snap, retrace_config_cache_build ⟨true, true⟩
      (some (scripts_conf [bytes "open", bytes "close"])) = some snap ∧
      retrace_config_cache_lookup (some snap) (bytes "close") = some (some (named_script (bytes "close"))) ∧
      retrace_config_cache_lookup (some snap) (bytes "read") = some none := by
  obtain ⟨snap, hsnap⟩ := isSome_iff_exists.mp (by decide :
    (retrace_config_cache_build ⟨true, true⟩ (some (scripts_conf [bytes "open", bytes "close"]))).isSome = true)
  have hfirst := config_cache_lookup_first _ _
    [.object (named_script (bytes "open")), .object (named_script (bytes "close"))] _ (by decide) hsnap
  obtain ⟨hit, hclose, hsome, -⟩ := hfirst (bytes "close")
  obtain ⟨miss, hread, -, hnone⟩ := hfirst (bytes "read")
  refine ⟨snap, hsnap, ?_, ?_⟩
  · rw [hclose, (hsome (named_script (bytes "close"))).mpr]
    refine ⟨[.object (named_script (bytes "open"))], _, [], rfl, ⟨rfl, rfl, by decide, by decide⟩, ?_, ?_⟩
    · rintro u hu other hnames
      rw [mem_singleton.mp hu] at hnames
      exact absurd (names_named_script hnames).1 (by decide)
    · exact fun us hsub _ => hsub.length_le.trans_lt (by decide)
  · rw [hread, hnone.mpr]
    rintro script ⟨front, v, back, hsplit, hnames, -⟩
    have hv : v ∈ [.object (named_script (bytes "open")), .object (named_script (bytes "close"))] :=
      hsplit ▸ mem_append_right _ mem_cons_self
    rcases mem_pair.mp hv with rfl | rfl
    · exact absurd (names_named_script hnames).1 (by decide)
    · exact absurd (names_named_script hnames).1 (by decide)

/-- With scripts for `open` and `close` the cache and the scan agree about `open`. -/
theorem script_find_open_close :
    ∃ snap, retrace_config_cache_build ⟨true, true⟩
      (some (scripts_conf [bytes "open", bytes "close"])) = some snap ∧
      retrace_script_find (fun _ => none) 4096 (some snap)
          [.object (named_script (bytes "open")), .object (named_script (bytes "close"))] (bytes "open") =
        some (script_scan (fun _ => none) 4096 (bytes "open") none
          [.object (named_script (bytes "open")), .object (named_script (bytes "close"))]) := by
  obtain ⟨snap, hsnap⟩ := isSome_iff_exists.mp (by decide :
    (retrace_config_cache_build ⟨true, true⟩ (some (scripts_conf [bytes "open", bytes "close"]))).isSome = true)
  refine ⟨snap, hsnap, (script_find_eq_scan_iff _ _ _ _ _ _ (by decide) hsnap _).mpr ?_⟩
  intro front v back script hsplit hv hfront hlen hplain
  cases front with
  | nil =>
    obtain ⟨rfl, rfl⟩ := List.cons.inj hsplit
    refine ⟨by simp, .inr fun u hu hover => ?_⟩
    obtain rfl := mem_singleton.mp hu
    rcases hover with hover | ⟨hover, -⟩
    · exact absurd hover (by decide)
    · exact absurd hover (by decide)
  | cons w front =>
    obtain ⟨rfl, -⟩ := List.cons.inj hsplit
    have hentry : cache_entry (.object (named_script (bytes "open"))) =
        some ⟨bytes "open", named_script (bytes "open")⟩ := rfl
    exact absurd rfl (hfront _ (mem_filterMap.mpr ⟨_, mem_cons_self, hentry⟩))

/-- With a wildcard in front of the script for `open`, the scan answers with the wildcard and the cache does
not. -/
theorem script_find_ne_scan :
    ∃ snap, retrace_config_cache_build ⟨true, true⟩ (some (scripts_conf [bytes "*", bytes "open"])) = some snap ∧
      retrace_script_find (fun _ => none) 4096 (some snap)
          [.object (named_script (bytes "*")), .object (named_script (bytes "open"))] (bytes "open") =
        some (some (named_script (bytes "open"))) ∧
      script_scan (fun _ => none) 4096 (bytes "open") none
          [.object (named_script (bytes "*")), .object (named_script (bytes "open"))] =
        some (named_script (bytes "*")) := by
  have hfind : (retrace_config_cache_build ⟨true, true⟩ (some (scripts_conf [bytes "*", bytes "open"]))).bind
      (fun snap => retrace_script_find (fun _ => none) 4096 (some snap)
        [.object (named_script (bytes "*")), .object (named_script (bytes "open"))] (bytes "open")) =
        some (some (named_script (bytes "open"))) := by
    decide
  obtain ⟨snap, hsnap, hfind⟩ := bind_eq_some_iff.mp hfind
  exact ⟨snap, hsnap, hfind, by decide⟩

end Retrace.Core
