import Retrace.Core.PathSet

/-!
# The compiled path sets

An entry that matches a path is in the bucket of the path or in the one for entries without a first component,
so a lookup in a compiled set finds what the walk over the array finds. A set that is kept for an array at one
address is used for another array at that address when both have the same length and the same two ends; the
answer is then the right one as long as the entries between fall into the same buckets.
-/

namespace Retrace.Core

open CLib CountingSort List

variable {entry s : Bytes} {q : Lookup} {arr b : Nat} {past qs : List Lookup} {set : PathSet} {g : PathSets}
  {list : PolicyArray}

theorem comp_hash_append (h : UInt32) (hsep : ∃ c ∈ s, c = 47 ∨ c = 92) :
    comp_hash h (s ++ r) = comp_hash h s := by
  induction s generalizing h with
  | nil => simp at hsep
  | cons c s ih =>
    rw [cons_append, comp_hash, comp_hash]
    split_ifs with hc
    · rfl
    · refine ih _ ?_
      obtain ⟨d, hd, hdsep⟩ := hsep
      rcases mem_cons.mp hd with rfl | hd
      · exact absurd hdsep hc
      · exact ⟨d, hd, hdsep⟩

theorem first_comp_hash_append (hhead : entry.head? = some 47)
    (hlen : entry.length ≠ 1) (hlast : ∃ c ∈ entry.getLast?, c = 47 ∨ c = 92) :
    first_comp_hash (entry ++ r) = first_comp_hash entry := by
  obtain ⟨c, entry, rfl⟩ := exists_cons_of_ne_nil (l := entry) (by rintro rfl; simp at hhead)
  obtain rfl : c = 47 := by simpa using hhead
  cases entry with
  | nil => simp at hlen
  | cons d entry =>
    obtain ⟨e, he, hsep⟩ := hlast
    rw [getLast?_cons_cons] at he
    have hmem := mem_of_getLast? he
    exact comp_hash_append _ ⟨e, hmem, hsep⟩

theorem entry_bucket_of_matches (h : path_matches path_arg entry = true) : entry_bucket entry = PATH_BUCKETS ∨
      entry_bucket entry = (first_comp_hash path_arg).toNat % PATH_BUCKETS := by
  rw [entry_bucket]
  split_ifs with hhead hlen
  · exact .inl rfl
  · exact .inl rfl
  · right
    rw [path_matches] at h
    cases hlast : entry.getLast? with
    | none => simp [hlast] at h
    | some last =>
      rw [hlast] at h
      dsimp only at h
      split_ifs at h with hsep
      · obtain ⟨r, rfl⟩ := isPrefixOf_iff_prefix.mp h
        rw [first_comp_hash_append (not_not.mp hhead) hlen ⟨last, hlast, hsep⟩]
      · rw [beq_iff_eq.mp h]

theorem entry_bucket_le (entry : Bytes) : entry_bucket entry ≤ PATH_BUCKETS := by
  rw [entry_bucket]
  split_ifs
  · exact le_rfl
  · exact le_rfl
  · exact (Nat.mod_lt _ (by decide)).le

theorem bucket_of_lt : bucket_of e < PATH_BUCKETS + 1 := by
  cases e with
  | none => exact Nat.lt_succ_self _
  | some entry => exact Nat.lt_succ_of_le (entry_bucket_le entry)

theorem bucket_of_lt_of_mem : ∀ k ∈ list.map bucket_of, k < PATH_BUCKETS + 1 := by
  intro k hk
  obtain ⟨e, -, rfl⟩ := mem_map.mp hk
  exact bucket_of_lt

def BucketsOf (set : PathSet) (list : PolicyArray) : Prop :=
  set.off = offsets (tally (PATH_BUCKETS + 1) (list.map bucket_of)) ∧
    set.idx = place (PATH_BUCKETS + 1) (list.map bucket_of)

theorem path_set_build_buckets (h : path_set_build list = some set) : BucketsOf set list := by
  rw [path_set_build] at h
  split_ifs at h
  cases h
  exact ⟨rfl, rfl⟩

theorem segment_eq (h : BucketsOf set list)
    (hb : b ≤ PATH_BUCKETS) : segment set.off set.idx b = positions b (list.map bucket_of) := by
  rw [h.1, h.2]
  exact segment_place bucket_of_lt_of_mem (Nat.lt_succ_of_le hb)

theorem bucket_contains_iff (h : BucketsOf set list) (hb : b ≤ PATH_BUCKETS) :
    bucket_contains set list path_arg b = true ↔
      ∃ e ∈ list, bucket_of e = b ∧ entry_matches path_arg e = true := by
  rw [bucket_contains, segment_eq h hb, any_eq_true]
  constructor
  · rintro ⟨i, hi, hmatch⟩
    rw [mem_positions, getElem?_map, Option.map_eq_some_iff] at hi
    obtain ⟨e, he, hbucket⟩ := hi
    rw [getD_eq_getElem?_getD, he] at hmatch
    exact ⟨e, mem_of_getElem? he, hbucket, hmatch⟩
  · rintro ⟨e, he, hbucket, hmatch⟩
    obtain ⟨i, hi⟩ := mem_iff_getElem?.mp he
    refine ⟨i, ?_, ?_⟩
    · rw [mem_positions, getElem?_map, hi, Option.map_some, hbucket]
    · rw [getD_eq_getElem?_getD, hi]
      exact hmatch

theorem set_contains_eq_walk (h : BucketsOf set list) : set_contains set list path_arg = walk path_arg list := by
  have hmod : (first_comp_hash path_arg).toNat % PATH_BUCKETS ≤ PATH_BUCKETS := (Nat.mod_lt _ (by decide)).le
  rw [Bool.eq_iff_iff, set_contains, Bool.or_eq_true, bucket_contains_iff h hmod,
    bucket_contains_iff h le_rfl, walk, any_eq_true]
  constructor
  · rintro (⟨e, he, -, hmatch⟩ | ⟨e, he, -, hmatch⟩)
    · exact ⟨e, he, hmatch⟩
    · exact ⟨e, he, hmatch⟩
  · rintro ⟨e, he, hmatch⟩
    cases e with
    | none => simp [entry_matches] at hmatch
    | some entry =>
      rcases entry_bucket_of_matches hmatch with hwild | hown
      · exact .inr ⟨some entry, he, hwild, hmatch⟩
      · exact .inl ⟨some entry, he, hown, hmatch⟩

theorem walk_iff (path_arg : Bytes) (list : PolicyArray) :
    walk path_arg list = true ↔ ∃ e, some e ∈ list ∧ path_matches path_arg e = true := by
  rw [walk, any_eq_true]
  constructor
  · rintro ⟨e, he, hmatch⟩
    cases e with
    | none => simp [entry_matches] at hmatch
    | some entry => exact ⟨entry, he, hmatch⟩
  · rintro ⟨e, he, hmatch⟩
    exact ⟨some e, he, hmatch⟩

theorem fresh_contains_eq_walk (path_arg : Bytes) (list : PolicyArray) :
    fresh_contains path_arg list = walk path_arg list := by
  rw [fresh_contains]
  cases hbuild : path_set_build list with
  | none => rfl
  | some set => exact set_contains_eq_walk (path_set_build_buckets hbuild)

theorem nodup_positions : (positions b ks).Nodup :=
  nodup_range.filter _

/-- A compiled set answers as the walk over the array, and every index of the array is in one bucket, once. -/
theorem compiled_set_exact (list : PolicyArray) (path_arg : Bytes) :
    (fresh_contains path_arg list = true ↔ ∃ e, some e ∈ list ∧ path_matches path_arg e = true) ∧
      ∀ set, path_set_build list = some set →
        (set_contains set list path_arg = true ↔ ∃ e, some e ∈ list ∧ path_matches path_arg e = true) ∧
        (∀ i < list.length, ∃! b, b ≤ PATH_BUCKETS ∧ i ∈ segment set.off set.idx b) ∧
        ∀ b ≤ PATH_BUCKETS, (segment set.off set.idx b).Nodup := by
  refine ⟨by rw [fresh_contains_eq_walk, walk_iff], fun set hset => ?_⟩
  have hbuckets := path_set_build_buckets hset
  refine ⟨by rw [set_contains_eq_walk hbuckets, walk_iff], ?_, ?_⟩
  · intro i hi
    have hkey : (list.map bucket_of)[i]? = some (bucket_of list[i]) := by
      rw [getElem?_map, getElem?_eq_getElem hi, Option.map_some]
    refine ⟨bucket_of list[i], ⟨Nat.le_of_lt_succ bucket_of_lt, ?_⟩, ?_⟩
    · rw [segment_eq hbuckets (Nat.le_of_lt_succ bucket_of_lt), mem_positions, hkey]
    · rintro b ⟨hb, hmem⟩
      rw [segment_eq hbuckets hb, mem_positions, hkey, Option.some.injEq] at hmem
      exact hmem.symm
  · intro b hb
    rw [segment_eq hbuckets hb]
    exact nodup_positions

/-- A set of two rules. -/
theorem compiled_set_shadow :
    ∃ set, path_set_build [some (bytes "/etc/shadow"), some (bytes "/root/")] = some set ∧
      set_contains set [some (bytes "/etc/shadow"), some (bytes "/root/")] (bytes "/root/x") = true := by
  obtain ⟨set, hset⟩ : ∃ set, path_set_build [some (bytes "/etc/shadow"), some (bytes "/root/")] = some set :=
    ⟨_, rfl⟩
  refine ⟨set, hset, ?_⟩
  rw [((compiled_set_exact _ (bytes "/root/x")).2 set hset).1]
  exact ⟨bytes "/root/", by simp, by decide⟩

def run_sets : PathSets → List Lookup → PathSets
  | g, [] => g
  | g, q :: qs => run_sets (list_contains g q.arr q.list q.path_arg).2 qs

def SameBuckets (qs : List Lookup) : Prop :=
  ∀ p ∈ qs, ∀ q ∈ qs, p.arr = q.arr → p.list.length = q.list.length → p.list.head? = q.list.head? →
    p.list.getLast? = q.list.getLast? → p.list.map bucket_of = q.list.map bucket_of

def Kept (g : PathSets) (past : List Lookup) : Prop :=
  ∀ x, some x ∈ g.slots → ∃ p ∈ past, p.arr = x.1 ∧ path_set_build p.list = some x.2

theorem kept_empty : Kept PathSets.empty [] := by
  intro x hx
  simp [PathSets.empty] at hx

theorem path_set_build_cases (h : path_set_build list = some set) :
    set.count = list.length ∧ set.first_copy = list.head?.join ∧ set.last_copy = list.getLast?.join := by
  rw [path_set_build] at h
  split_ifs at h
  cases h
  exact ⟨rfl, rfl, rfl⟩

theorem path_set_build_eq_none :
    path_set_build list = none ↔ list ≠ [] ∧ (list.head?.join = none ∨ list.getLast?.join = none) := by
  rw [path_set_build]
  split_ifs with h
  · exact iff_of_true rfl h
  · exact iff_of_false (by simp) h

theorem eq_of_join_eq {a b : Option (Option Bytes)} (ha : a.join = some s) (hb : b.join = some s) : a = b := by
  rw [Option.join_eq_some_iff] at ha hb
  rw [ha, hb]

theorem ends_of_valid (hbuild : path_set_build old = some set) (hvalid : path_set_valid set list = true) :
    old.length = list.length ∧ old.head? = list.head? ∧ old.getLast? = list.getLast? := by
  obtain ⟨hcount, hfirst, hlast⟩ := path_set_build_cases hbuild
  rw [path_set_valid] at hvalid
  split_ifs at hvalid with hlen hnil
  · rw [not_not, hcount] at hlen
    obtain rfl := hnil
    obtain rfl := length_eq_zero_iff.mp hlen
    exact ⟨rfl, rfl, rfl⟩
  · rw [not_not, hcount] at hlen
    cases h1 : list.head?.join with
    | none => simp [h1] at hvalid
    | some first =>
      cases h2 : list.getLast?.join with
      | none => simp [h1, h2] at hvalid
      | some last =>
        cases h3 : set.first_copy with
        | none => simp [h1, h2, h3] at hvalid
        | some first_copy =>
          cases h4 : set.last_copy with
          | none => simp [h1, h2, h3, h4] at hvalid
          | some last_copy =>
            simp only [h1, h2, h3, h4, Bool.and_eq_true, beq_iff_eq] at hvalid
            refine ⟨hlen, eq_of_join_eq ?_ h1, eq_of_join_eq ?_ h2⟩
            · rw [← hfirst, h3, hvalid.1]
            · rw [← hlast, h4, hvalid.2]

theorem registry_hit_cases (h : registry_hit g arr list = some set) :
    some (arr, set) ∈ g.slots ∧ path_set_valid set list = true := by
  obtain ⟨slot, hmem, hslot⟩ := exists_of_findSome?_eq_some h
  obtain ⟨x, rfl, hx⟩ := Option.bind_eq_some_iff.mp hslot
  split_ifs at hx with hcond
  cases hx
  obtain ⟨rfl, hvalid⟩ := hcond
  exact ⟨hmem, hvalid⟩

theorem registry_hit_buckets (hkept : Kept g past) (hpast : past ⊆ qs) (hq : q ∈ qs) (hsame : SameBuckets qs)
    (h : registry_hit g q.arr q.list = some set) : BucketsOf set q.list := by
  obtain ⟨hmem, hvalid⟩ := registry_hit_cases h
  obtain ⟨p, hp, harr, hbuild⟩ := hkept _ hmem
  obtain ⟨hlen, hhead, hlast⟩ := ends_of_valid hbuild hvalid
  have hkeys := hsame p (hpast hp) q hq harr hlen hhead hlast
  have hold := path_set_build_buckets hbuild
  rw [BucketsOf, hkeys] at hold
  exact hold

theorem registry_hit_build
    (hkept : Kept g past) (h : registry_hit g arr list = some set) :
    ∃ fresh, path_set_build list = some fresh := by
  obtain ⟨hmem, hvalid⟩ := registry_hit_cases h
  obtain ⟨p, -, -, hbuild⟩ := hkept _ hmem
  obtain ⟨hlen, hhead, hlast⟩ := ends_of_valid hbuild hvalid
  cases hfresh : path_set_build list with
  | some fresh => exact ⟨fresh, rfl⟩
  | none =>
    have hnone : path_set_build p.list = none := by
      rw [path_set_build_eq_none] at hfresh ⊢
      rw [hhead, hlast, ne_eq, ← length_eq_zero_iff, hlen, length_eq_zero_iff]
      exact hfresh
    simp [hbuild] at hnone

/-- After a lookup every slot still holds what was compiled for its array, now or in an earlier lookup. -/
theorem Kept.step (h : Kept g past) (q : Lookup) :
    Kept (list_contains g q.arr q.list q.path_arg).2 (past ++ [q]) := by
  have hold : Kept g (past ++ [q]) := by
    intro x hx
    obtain ⟨p, hp, harr⟩ := h x hx
    exact ⟨p, mem_append_left _ hp, harr⟩
  rw [list_contains]
  cases registry_hit g q.arr q.list with
  | some set => exact hold
  | none =>
    cases hbuild : path_set_build q.list with
    | none => exact hold
    | some set =>
      intro x hx
      rcases mem_or_eq_of_mem_set hx with hx | hx
      · exact hold x hx
      · cases hx
        exact ⟨q, by simp, rfl, hbuild⟩

theorem list_contains_walk (hkept : Kept g past) (hpast : past ⊆ qs) (hq : q ∈ qs) (hsame : SameBuckets qs) :
    (list_contains g q.arr q.list q.path_arg).1 = walk q.path_arg q.list := by
  rw [list_contains]
  cases hhit : registry_hit g q.arr q.list with
  | some set => exact set_contains_eq_walk (registry_hit_buckets hkept hpast hq hsame hhit)
  | none =>
    cases hbuild : path_set_build q.list with
    | none => rfl
    | some set => exact set_contains_eq_walk (path_set_build_buckets hbuild)

theorem list_contains_run_walk (hqs : qs = past ++ rest) (hkept : Kept g past) (hsame : SameBuckets qs) :
    list_contains_run g rest = rest.map fun q => walk q.path_arg q.list := by
  induction rest generalizing g past with
  | nil => rfl
  | cons q rest ih =>
    have hq : q ∈ qs := by simp [hqs]
    have hpast : past ⊆ qs := by simp [hqs]
    rw [list_contains_run, map_cons, list_contains_walk hkept hpast hq hsame,
      ih (by simpa using hqs) (hkept.step q)]

theorem kept_run_sets (hkept : Kept g past) (qs : List Lookup) : Kept (run_sets g qs) (past ++ qs) := by
  induction qs generalizing g past with
  | nil => simpa [run_sets] using hkept
  | cons q qs ih => simpa [run_sets] using ih (hkept.step q)

/-- When arrays that cannot be told apart by address, length and ends have their entries in the same buckets,
every call gives the answer of the walk, and every set that is taken for an array is laid out as the one built
from it. -/
theorem kept_sets_exact (qs : List Lookup) (h : SameBuckets qs) :
    list_contains_run PathSets.empty qs = (qs.map fun q => walk q.path_arg q.list) ∧
      ∀ past q rest, qs = past ++ q :: rest → ∀ set,
        registry_hit (run_sets PathSets.empty past) q.arr q.list = some set →
          ∃ fresh, path_set_build q.list = some fresh ∧ set.off = fresh.off ∧ set.idx = fresh.idx := by
  refine ⟨list_contains_run_walk rfl kept_empty h, ?_⟩
  intro past q rest hqs set hhit
  have hkept := kept_run_sets kept_empty past
  obtain ⟨fresh, hfresh⟩ := registry_hit_build hkept hhit
  obtain ⟨hoff, hidx⟩ := registry_hit_buckets hkept (by simp [hqs]) (by simp [hqs]) h hhit
  obtain ⟨hoff', hidx'⟩ := path_set_build_buckets hfresh
  exact ⟨fresh, hfresh, hoff.trans hoff'.symm, hidx.trans hidx'.symm⟩

def policyWith (middle : Bytes) : PolicyArray := [some (bytes "/a"), some middle, some (bytes "/c")]

/-- A replaced array with the same buckets: the kept set is taken for it, and the answer is right. -/
theorem kept_sets_replaced :
    list_contains_run PathSets.empty [⟨1, policyWith (bytes "/b/x"), bytes "/b/x"⟩,
        ⟨1, policyWith (bytes "/b/y"), bytes "/b/y"⟩] = [true, true] ∧
      (registry_hit (run_sets PathSets.empty [⟨1, policyWith (bytes "/b/x"), bytes "/b/x"⟩]) 1
        (policyWith (bytes "/b/y"))).isSome = true := by
  refine ⟨(kept_sets_exact _ ?_).1.trans (by decide), by decide +kernel⟩
  intro p hp q hq _ _ _ _
  rcases mem_pair.mp hp with rfl | rfl <;> rcases mem_pair.mp hq with rfl | rfl <;> decide

/-- The path in the middle of the new array is not found. -/
theorem kept_set_misses :
    list_contains_run PathSets.empty [⟨1, policyWith (bytes "/b"), bytes "/b"⟩,
        ⟨1, policyWith (bytes "/d"), bytes "/d"⟩] = [true, false] ∧
      walk (bytes "/d") (policyWith (bytes "/d")) = true := by
  decide +kernel

end Retrace.Core
