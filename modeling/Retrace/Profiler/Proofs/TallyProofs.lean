import Retrace.Profiler.Proofs.PathOrderProofs

/-!
# Profiles count exactly

An array that is kept sorted by insertions at the place a search ends is a table of summaries: for each name among
what was put in, there is one element that sums up its occurrences. Two such arrays with the same elements are
equal, so the order of the entries does not matter.
-/

namespace Retrace.Profiler

open CLib Parson List

section

variable {α β : Type} {key : α → Bytes} {xs ys : List α} {name : Bytes}

theorem strcmp_lt_trans (hst : strcmp s t = .lt) (htu : strcmp t u = .lt) : strcmp s u = .lt := by
  refine strcmp_lt_of_le (strcmp_le_trans (strcmp_le_of_lt hst) (strcmp_le_of_lt htu)) ?_
  rintro rfl
  rw [strcmp_swap, hst] at htu
  cases htu

theorem strcmp_self (s : Bytes) : strcmp s s = .eq := by
  induction s with
  | nil => rfl
  | cons c s ih => simpa [strcmp] using ih

def Sorted (key : α → Bytes) (xs : List α) : Prop := xs.Pairwise fun x y => strcmp (key x) (key y) = .lt

def Probe.Splits (key : α → Bytes) (xs : List α) (name : Bytes) : Probe → Prop
  | .found i => ∃ x, xs[i]? = some x ∧ key x = name
  | .missing i => (∀ x ∈ xs.take i, strcmp (key x) name = .lt) ∧ ∀ x ∈ xs.drop i, strcmp (key x) name = .gt

theorem sorted_split (hs : Sorted key xs) (hx : xs[i]? = some x) :
    xs = xs.take i ++ x :: xs.drop (i + 1) ∧ (∀ y ∈ xs.take i, strcmp (key y) (key x) = .lt) ∧
      ∀ y ∈ xs.drop (i + 1), strcmp (key x) (key y) = .lt := by
  have hsplit : xs = xs.take i ++ x :: xs.drop (i + 1) := by
    obtain ⟨hlt, rfl⟩ := List.getElem?_eq_some_iff.1 hx
    rw [← drop_eq_getElem_cons hlt, take_append_drop]
  refine ⟨hsplit, fun y hy => ?_, fun y hy => ?_⟩
  · rw [hsplit] at hs
    exact (pairwise_append.1 hs).2.2 y hy x mem_cons_self
  · rw [hsplit] at hs
    exact (pairwise_cons.1 (pairwise_append.1 hs).2.1).1 y hy

theorem bsearch_loop_splits (hs : Sorted key xs) (hfuel : hi - lo ≤ fuel) (hlo : lo ≤ hi)
    (hhi : hi ≤ xs.length) (hbelow : ∀ x ∈ xs.take lo, strcmp (key x) name = .lt)
    (habove : ∀ x ∈ xs.drop hi, strcmp (key x) name = .gt) :
    (bsearch_loop key xs name fuel lo hi).Splits key xs name := by
  induction fuel generalizing lo hi with
  | zero =>
    obtain rfl : lo = hi := by omega
    exact ⟨hbelow, habove⟩
  | succ fuel ih =>
    rw [bsearch_loop]
    split_ifs with hlt
    · have hmid : lo ≤ lo + (hi - lo) / 2 ∧ lo + (hi - lo) / 2 < hi := by omega
      generalize lo + (hi - lo) / 2 = mid at hmid ⊢
      obtain ⟨x, hx⟩ : ∃ x, xs[mid]? = some x := ⟨_, getElem?_eq_getElem (by omega)⟩
      obtain ⟨-, hleft, hright⟩ := sorted_split hs hx
      simp only [hx]
      cases hcmp : strcmp (key x) name with
      | eq => exact ⟨x, hx, eq_of_strcmp hcmp⟩
      | lt =>
        refine ih (by omega) (by omega) hhi (fun y hy => ?_) habove
        rw [take_add_one, hx, mem_append] at hy
        rcases hy with hy | hy
        · exact strcmp_lt_trans (hleft y hy) hcmp
        · obtain rfl : y = x := by simpa using hy
          exact hcmp
      | gt =>
        refine ih (by omega) hmid.1 (by omega) hbelow fun y hy => ?_
        obtain ⟨hlt, rfl⟩ := List.getElem?_eq_some_iff.1 hx
        rw [drop_eq_getElem_cons hlt, mem_cons] at hy
        rcases hy with rfl | hy
        · exact hcmp
        · rw [strcmp_swap name, strcmp_lt_trans (strcmp_lt_of_gt hcmp) (hright y hy)]
          rfl
    · obtain rfl : lo = hi := by omega
      exact ⟨hbelow, habove⟩

theorem bsearch_splits (hs : Sorted key xs) : (bsearch key xs name).Splits key xs name :=
  bsearch_loop_splits hs le_rfl (Nat.zero_le _) le_rfl (by simp) (by simp)

theorem insertIdx_eq_append (h : i ≤ xs.length) : xs.insertIdx i new = xs.take i ++ new :: xs.drop i := by
  induction xs generalizing i with
  | nil => simp_all
  | cons x xs ih =>
    cases i with
    | zero => rfl
    | succ i => simpa using ih (Nat.succ_le_succ_iff.1 h)

def upsert (key : α → Bytes) (f : α → α) (new : α) (xs : List α) (name : Bytes) : List α :=
  match bsearch key xs name with
  | .found i => xs.modify i f
  | .missing i => xs.insertIdx i new

section

variable {f : α → α}

theorem upsert_eq (hs : Sorted key xs) : ∃ l r y, upsert key f new xs name = l ++ y :: r ∧
    (∀ z ∈ l, strcmp (key z) name = .lt) ∧ (∀ z ∈ r, strcmp name (key z) = .lt) ∧
      (xs = l ++ r ∧ y = new ∨ ∃ x, key x = name ∧ xs = l ++ x :: r ∧ y = f x) := by
  have hprobe := @bsearch_splits _ key xs name hs
  unfold upsert
  cases hsearch : bsearch key xs name with
  | found i =>
    rw [hsearch] at hprobe
    obtain ⟨x, hx, rfl⟩ := hprobe
    obtain ⟨hsplit, hleft, hright⟩ := sorted_split hs hx
    obtain ⟨hlt, rfl⟩ := List.getElem?_eq_some_iff.1 hx
    exact ⟨_, _, _, modify_eq_take_cons_drop hlt, hleft, hright, .inr ⟨_, rfl, hsplit, rfl⟩⟩
  | missing i =>
    rw [hsearch] at hprobe
    obtain ⟨hleft, hright⟩ := hprobe
    exact ⟨_, _, _, insertIdx_eq_append (bsearch_missing hsearch), hleft,
      fun z hz => strcmp_lt_of_gt (hright z hz), .inl ⟨(take_append_drop i xs).symm, rfl⟩⟩

theorem upsert_sorted (hs : Sorted key xs) (hf : ∀ x, key (f x) = key x) (hnew : key new = name) :
    Sorted key (upsert key f new xs name) ∧ ∀ y, y ∈ upsert key f new xs name ↔
      y ∈ xs ∧ key y ≠ name ∨ (∃ x ∈ xs, key x = name ∧ y = f x) ∨ y = new ∧ ∀ x ∈ xs, key x ≠ name := by
  obtain ⟨l, r, y, heq, hleft, hright, hxs⟩ := @upsert_eq _ key xs name f new hs
  have hl : ∀ z ∈ l, key z ≠ name := by
    rintro z hz rfl
    simpa [strcmp_self] using hleft z hz
  have hr : ∀ z ∈ r, key z ≠ name := by
    rintro z hz rfl
    simpa [strcmp_self] using hright z hz
  have hy : key y = name := by
    rcases hxs with ⟨-, rfl⟩ | ⟨x, hx, -, rfl⟩
    · exact hnew
    · rw [hf, hx]
  rw [heq]
  refine ⟨?_, fun z => ?_⟩
  · have hlr : Sorted key (l ++ r) := by
      rcases hxs with ⟨rfl, -⟩ | ⟨x, -, rfl, -⟩
      · exact hs
      · exact hs.sublist ((sublist_cons_self x r).append_left l)
    obtain ⟨hsl, hsr, hlr⟩ := pairwise_append.1 hlr
    refine pairwise_append.2 ⟨hsl, pairwise_cons.2 ⟨by rwa [hy], hsr⟩, fun x hx z hz => ?_⟩
    rcases mem_cons.1 hz with rfl | hz
    · exact hy ▸ hleft x hx
    · exact hlr x hx z hz
  · rcases hxs with ⟨rfl, rfl⟩ | ⟨x, hx, rfl, rfl⟩
    · grind
    · grind

end

theorem sorted_ext (hxs : Sorted key xs) (hys : Sorted key ys) (h : ∀ x, x ∈ xs ↔ x ∈ ys) : xs = ys := by
  have hnodup : ∀ {zs : List α}, Sorted key zs → zs.Nodup := by
    intro zs hzs
    refine hzs.imp fun hlt heq => ?_
    rw [heq, strcmp_self] at hlt
    cases hlt
  have hperm := (perm_ext_iff_of_nodup (hnodup hxs) (hnodup hys)).2 h
  refine hperm.eq_of_pairwise (fun a b _ _ hab hba => ?_) hxs hys
  rw [strcmp_swap, hab] at hba
  cases hba

/-- The array has one element for each name of `occ`, which is what `sum` makes of its occurrences. -/
structure Tally (key : α → Bytes) (k : β → Bytes) (sum : List β → Bytes → α) (xs : List α)
    (occ : List β) : Prop where
  sorted : Sorted key xs
  mem : ∀ x, x ∈ xs ↔ key x ∈ occ.map k ∧ x = sum occ (key x)

variable {k : β → Bytes} {sum : List β → Bytes → α}

theorem Tally.add {f : α → α} {new : α} {b : β} (h : Tally key k sum xs occ) (hf : ∀ x, key (f x) = key x)
    (hnew : key new = k b) (hkey : ∀ occ name, key (sum occ name) = name)
    (hother : ∀ name ≠ k b, sum (occ ++ [b]) name = sum occ name)
    (hold : k b ∈ occ.map k → sum (occ ++ [b]) (k b) = f (sum occ (k b)))
    (hfirst : k b ∉ occ.map k → sum (occ ++ [b]) (k b) = new) :
    Tally key k sum (upsert key f new xs (k b)) (occ ++ [b]) := by
  obtain ⟨hsorted, hmem⟩ := upsert_sorted h.sorted hf hnew
  refine ⟨hsorted, fun y => ?_⟩
  have hnone : (∀ x ∈ xs, key x ≠ k b) ↔ k b ∉ occ.map k := by
    constructor
    · intro hall hin
      exact hall (sum occ (k b)) ((h.mem _).2 ⟨(hkey occ (k b)).symm ▸ hin, by rw [hkey]⟩) (hkey occ (k b))
    · intro hnot x hx heq
      exact hnot (heq ▸ ((h.mem x).1 hx).1)
  rw [hmem, hnone, map_append, mem_append, map_singleton, mem_singleton]
  by_cases hy : key y = k b
  · simp only [hy, ne_eq, not_true_eq_false, and_false, false_or, or_true, true_and]
    by_cases hin : k b ∈ occ.map k
    · rw [hold hin]
      constructor
      · rintro (⟨x, hx, hxb, rfl⟩ | ⟨-, hnot⟩)
        · rw [((h.mem x).1 hx).2, hxb]
        · exact absurd hin hnot
      · intro heq
        exact .inl ⟨sum occ (k b), (h.mem _).2 ⟨(hkey occ (k b)).symm ▸ hin, by rw [hkey]⟩, hkey _ _, heq⟩
    · rw [hfirst hin]
      constructor
      · rintro (⟨x, hx, hxb, -⟩ | ⟨heq, -⟩)
        · exact absurd (hxb ▸ ((h.mem x).1 hx).1) hin
        · exact heq
      · exact fun heq => .inr ⟨heq, hin⟩
  · rw [hother _ hy, h.mem]
    constructor
    · rintro (⟨hx, -⟩ | ⟨x, hx, hxb, rfl⟩ | ⟨rfl, -⟩)
      · exact ⟨.inl hx.1, hx.2⟩
      · exact absurd ((hf x).trans hxb) hy
      · exact absurd hnew hy
    · rintro ⟨hin, hsum⟩
      exact .inl ⟨⟨hin.resolve_right hy, hsum⟩, hy⟩

theorem Tally.ext (hxs : Tally key k sum xs occ) (hys : Tally key k sum ys occ')
    (hmem : ∀ name, name ∈ occ.map k ↔ name ∈ occ'.map k)
    (hsum : ∀ name, sum occ name = sum occ' name) : xs = ys := by
  refine sorted_ext hxs.sorted hys.sorted fun x => ?_
  rw [hxs.mem, hys.mem, hmem, hsum]

end

def nameSum (occ : List Bytes) (name : Bytes) : ProfName := ⟨name, occ.count name⟩

def NamesOf (n : List ProfName) (occ : List Bytes) : Prop :=
  Tally ProfName.name id nameSum n (occ.filter (· ≠ []))

theorem NamesOf.add {n : List ProfName} {occ : List Bytes} (h : NamesOf n occ) (name : Bytes) :
    NamesOf (prof_names_add n name) (occ ++ [name]) := by
  unfold prof_names_add NamesOf
  rw [filter_append]
  split_ifs with hname
  · rw [hname, show ([[]] : List Bytes).filter (· ≠ []) = [] from rfl, append_nil]
    exact h
  · rw [filter_cons_of_pos (by simpa using hname), filter_nil]
    refine @Tally.add _ _ ProfName.name _ id nameSum _ (fun e => { e with count := e.count + 1 }) ⟨name, 1⟩ name h
      (fun _ => rfl) rfl (fun _ _ => rfl) (fun other hne => ?_) (fun _ => ?_) fun hnot => ?_
    · have hname' : name ≠ other := Ne.symm hne
      simp [nameSum, count_append, hname']
    · simp [nameSum, count_append]
    · rw [map_id] at hnot
      rw [nameSum, count_append, count_eq_zero_of_not_mem hnot]
      simp

theorem insert_back_sorted (h : ∀ x ∈ done, strcmp x.name e.name = .lt) : insert_back e done = e :: done := by
  cases done with
  | nil => rfl
  | cons x done =>
    rw [insert_back, if_neg]
    rw [h x mem_cons_self]
    decide

theorem names_finish_sorted (h : Sorted ProfName.name n) : names_finish n = n := by
  have hfold : ∀ (rest done : List ProfName), Sorted ProfName.name (done.reverse ++ rest) →
      rest.foldl (fun done e => insert_back e done) done = rest.reverse ++ done := by
    intro rest
    induction rest with
    | nil => simp
    | cons e rest ih =>
      intro done hs
      have hdone : ∀ x ∈ done, strcmp x.name e.name = .lt := fun x hx =>
        (pairwise_append.1 hs).2.2 x (mem_reverse.2 hx) e mem_cons_self
      rw [foldl_cons, insert_back_sorted hdone, ih (e :: done) (by simpa using hs)]
      simp
  rw [names_finish, hfold n [] (by simpa using h)]
  simp

def accessSum (occ : List (Bytes × CorrClass)) (path : Bytes) : ProfAccess where
  path := path
  class_write := decide ((path, CorrClass.write) ∈ occ)
  class_read := decide ((path, CorrClass.read) ∈ occ)
  class_probe := decide ((path, CorrClass.probe) ∈ occ)
  hits := (occ.map Prod.fst).count path

def AccessesOf (a : List ProfAccess) (occ : List (Bytes × CorrClass)) : Prop :=
  Tally ProfAccess.path Prod.fst accessSum a occ

theorem hit_accessSum : accessSum (occ ++ [(path, cls)]) path = (accessSum occ path).hit cls := by
  cases cls <;> simp [accessSum, ProfAccess.hit]

theorem AccessesOf.add {p : Profile} {occ : List (Bytes × CorrClass)}
    (h : AccessesOf p.accesses occ) (path : Bytes)
    (cls : CorrClass) : AccessesOf (access_add p path cls).accesses (occ ++ [(path, cls)]) := by
  refine @Tally.add _ _ ProfAccess.path _ Prod.fst accessSum _ (·.hit cls) (({ path } : ProfAccess).hit cls)
    (path, cls) h (fun a => ?_) ?_ (fun _ _ => rfl) (fun other hne => ?_) (fun _ => hit_accessSum)
    fun hnot => ?_
  · cases cls <;> rfl
  · cases cls <;> rfl
  · simp [accessSum, count_append, hne, Ne.symm hne]
  · have hfirst : accessSum occ path = { path } := by
      have hno : ∀ c, (path, c) ∉ occ := fun c hc => hnot (mem_map.2 ⟨(path, c), hc, rfl⟩)
      simp [accessSum, hno, count_eq_zero_of_not_mem hnot]
    rw [hit_accessSum, hfirst]

def func_name (msg : JsonObject) : Bytes := (json_object_get_string (some msg) (bytes "func")).getD []

def mentions (msg : JsonObject) : List (Bytes × CorrClass) :=
  ((strings (.object msg)).filterMap fun s =>
    if corr_is_path_like s then corr_normalize s CORR_PATH_MAX else none).map fun path =>
      (path, corr_classify (json_object_get_string (some msg) (bytes "func"))
        (json_object_get_string (some msg) (bytes "detail")))

/-- The profile counts the calls `calls`. -/
structure CountsCalls (p : Profile) (calls : List JsonObject) : Prop where
  functions : NamesOf p.functions (calls.map func_name)
  env : NamesOf p.env (calls.map env_name)
  net : NamesOf p.net (calls.map net_name)
  accesses : AccessesOf p.accesses (calls.flatMap mentions)

theorem collect_strings_counts (func detail : Option Bytes) (ss : List Bytes) {p : Profile}
    {occ : List (Bytes × CorrClass)} (h : AccessesOf p.accesses occ) :
    AccessesOf (ss.foldl (collect_step func detail) p).accesses
      (occ ++ (ss.filterMap fun s => if corr_is_path_like s then corr_normalize s CORR_PATH_MAX
        else none).map fun path =>
        (path, corr_classify func detail)) ∧
    (ss.foldl (collect_step func detail) p).functions = p.functions ∧
    (ss.foldl (collect_step func detail) p).env = p.env ∧ (ss.foldl (collect_step func detail) p).net = p.net := by
  induction ss generalizing p occ with
  | nil => exact ⟨by simpa using h, rfl, rfl, rfl⟩
  | cons s ss ih =>
    rw [foldl_cons, collect_step, collect_string, filterMap_cons]
    by_cases hlike : corr_is_path_like s = true
    · simp only [hlike, if_true]
      cases corr_normalize s CORR_PATH_MAX with
      | none => exact ih h
      | some path =>
        have hadd := ih (h.add path (corr_classify func detail))
        rw [append_assoc, singleton_append] at hadd
        exact hadd
    · simp only [hlike]
      exact ih h

theorem CountsCalls.add_call (h : CountsCalls p calls) (msg : JsonObject) :
    CountsCalls (add_call msg p) (calls ++ [msg]) := by
  obtain ⟨haccesses, hfunctions, henv, hnet⟩ := @collect_strings_counts
    (json_object_get_string (some msg) (bytes "func")) (json_object_get_string (some msg) (bytes "detail"))
    (strings (.object msg))
    { p with
      functions := prof_names_add p.functions (func_name msg)
      env := prof_names_add p.env (env_name msg)
      net := prof_names_add p.net (net_name msg) } _ h.accesses
  rw [add_call_eq]
  refine ⟨?_, ?_, ?_, ?_⟩
  · rw [map_append, show (json_object_get_string (some msg) (bytes "func")).getD [] = func_name msg from rfl,
      hfunctions]
    exact h.functions.add _
  · rw [map_append, show (json_object_get_string (some msg) (bytes "func")).getD [] = func_name msg from rfl, henv]
    exact h.env.add _
  · rw [map_append, show (json_object_get_string (some msg) (bytes "func")).getD [] = func_name msg from rfl, hnet]
    exact h.net.add _
  · rw [flatMap_append, flatMap_singleton]
    exact haccesses

def callsOf (entries : List (Option JsonObject)) : List JsonObject := entries.filterMap call_of

theorem CountsCalls.fold (h : CountsCalls p calls) (entries : List (Option JsonObject)) :
    CountsCalls (entries.foldl prof_add_entry p) (calls ++ callsOf entries) := by
  induction entries generalizing p calls with
  | nil => simpa [callsOf] using h
  | cons entry entries ih =>
    rw [foldl_cons]
    cases entry with
    | none => exact ih h
    | some o =>
      have hcount : CountsCalls (p.count o) calls := ⟨h.functions, h.env, h.net, h.accesses⟩
      rw [prof_add_entry_some, callsOf, filterMap_cons]
      cases call_of (some o) with
      | none => exact ih hcount
      | some msg => simpa [callsOf] using ih (hcount.add_call msg)

theorem CountsCalls.finish (h : CountsCalls p calls) : prof_finish p = p := by
  rw [prof_finish, names_finish_sorted h.functions.sorted, names_finish_sorted h.env.sorted,
    names_finish_sorted h.net.sorted]

theorem NamesOf.ext (h : NamesOf n occ) (h' : NamesOf n' occ') (hperm : occ.Perm occ') : n = n' := by
  have hfilter := hperm.filter (· ≠ [])
  exact Tally.ext h h' (fun name => (hfilter.map id).mem_iff) fun name => by rw [nameSum, hfilter.count_eq]; rfl

theorem AccessesOf.ext (h : AccessesOf a occ) (h' : AccessesOf a' occ') (hperm : occ.Perm occ') : a = a' := by
  refine Tally.ext h h' (fun path => (hperm.map Prod.fst).mem_iff) fun path => ?_
  simp only [accessSum, hperm.mem_iff, (hperm.map Prod.fst).count_eq]

theorem counts_trace (entries : List (Option JsonObject)) :
    CountsCalls (prof_finish (entries.foldl prof_add_entry {})) (callsOf entries) := by
  have hnil : CountsCalls {} [] :=
    ⟨⟨.nil, by simp⟩, ⟨.nil, by simp⟩, ⟨.nil, by simp⟩, ⟨.nil, by simp⟩⟩
  have h := hnil.fold entries
  rw [h.finish]
  exact h

/-- The profile of a trace counts exactly the calls among its entries, and a permutation of them has the same. -/
theorem profile_counts (entries : List (Option JsonObject)) :
    CountsCalls (prof_finish (entries.foldl prof_add_entry {})) (callsOf entries) ∧
      ∀ entries' : List (Option JsonObject), entries.Perm entries' →
        (prof_finish (entries'.foldl prof_add_entry {})).functions =
          (prof_finish (entries.foldl prof_add_entry {})).functions ∧
        (prof_finish (entries'.foldl prof_add_entry {})).env =
          (prof_finish (entries.foldl prof_add_entry {})).env ∧
        (prof_finish (entries'.foldl prof_add_entry {})).net =
          (prof_finish (entries.foldl prof_add_entry {})).net ∧
        (prof_finish (entries'.foldl prof_add_entry {})).accesses =
          (prof_finish (entries.foldl prof_add_entry {})).accesses := by
  refine ⟨counts_trace entries, fun entries' hperm => ?_⟩
  have hcalls : (callsOf entries').Perm (callsOf entries) := hperm.symm.filterMap _
  have h := counts_trace entries
  have h' := counts_trace entries'
  exact ⟨h'.functions.ext h.functions (hcalls.map _), h'.env.ext h.env (hcalls.map _),
    h'.net.ext h.net (hcalls.map _), h'.accesses.ext h.accesses (hcalls.flatMap_right _)⟩

theorem NamesOf.exists_name (h : NamesOf n occ) : (∃ e ∈ n, e.name = name) ↔ name ∈ occ ∧ name ≠ [] := by
  have hocc : name ∈ occ ∧ name ≠ [] ↔ name ∈ (occ.filter (· ≠ [])).map id := by simp
  rw [hocc]
  constructor
  · rintro ⟨e, he, rfl⟩
    exact ((h.mem e).mp he).1
  · exact fun hname => ⟨nameSum _ name, (h.mem _).mpr ⟨hname, rfl⟩, rfl⟩

theorem NamesOf.counted (h : NamesOf n occ)
    (hok : ∀ s ∈ occ, s ≠ [] → ok s) (hk : occ.length ≤ k) : Counted ok k n := by
  intro e he
  obtain ⟨hocc, hne⟩ := h.exists_name.mp ⟨e, he, rfl⟩
  have hcount : e.count = (occ.filter (· ≠ [])).count e.name := congrArg ProfName.count ((h.mem e).mp he).2
  have hle := (count_le_length (a := e.name)).trans (length_filter_le (· ≠ []) occ)
  refine ⟨hok e.name hocc hne, hcount ▸ count_pos_iff.mpr ?_, hcount ▸ hle.trans hk⟩
  simpa using ⟨hocc, hne⟩

theorem CountsCalls.sound (h : CountsCalls p calls) (htexts : ∀ msg ∈ calls, ∀ s ∈ strings (.object msg), Text s)
    (hk : (calls.map fun msg => 1 + (strings (.object msg)).length).sum ≤ k) : Sound k p := by
  have hcalls : calls.length ≤ k := by
    have hle := sum_le_sum (l := calls) (f := fun _ => 1) (g := fun msg => 1 + (strings (.object msg)).length)
      fun _ _ => Nat.le_add_right ..
    rw [map_const', sum_replicate, smul_eq_mul, Nat.mul_one] at hle
    exact hle.trans hk
  have hmentions : (calls.flatMap mentions).length ≤ k := by
    rw [length_flatMap]
    refine (sum_le_sum fun msg _ => ?_).trans hk
    rw [mentions, length_map]
    exact (length_filterMap_le ..).trans (Nat.le_add_left ..)
  have hlength : ∀ f : JsonObject → Bytes, (calls.map f).length ≤ k := fun f => by rwa [length_map]
  refine ⟨h.functions.counted ?_ (hlength _), h.env.counted ?_ (hlength _),
    h.net.counted ?_ (hlength _), fun a ha => ?_⟩
  · exact forall_mem_map.mpr fun msg hmsg hne => ⟨text_getD (htexts msg hmsg) _, hne⟩
  · exact forall_mem_map.mpr fun msg hmsg hne => ⟨text_env_name (htexts msg hmsg), hne⟩
  · exact forall_mem_map.mpr fun msg hmsg hne => ⟨nul_net_name (htexts msg hmsg), hne⟩
  · obtain ⟨hpath, heq⟩ := (h.accesses.mem a).mp ha
    have hhits : a.hits = ((calls.flatMap mentions).map Prod.fst).count a.path := congrArg ProfAccess.hits heq
    refine ⟨?_, hhits ▸ count_pos_iff.mpr hpath, hhits ▸ count_le_length.trans (by rwa [length_map])⟩
    obtain ⟨⟨path, cls⟩, hmem, rfl⟩ := mem_map.mp hpath
    obtain ⟨msg, hmsg, hmem⟩ := mem_flatMap.mp hmem
    obtain ⟨path, hnorm, heq⟩ := mem_map.mp hmem
    cases heq
    obtain ⟨s, hs, hnorm⟩ := mem_filterMap.mp hnorm
    split_ifs at hnorm
    exact text_normalize (htexts msg hmsg s hs) hnorm

theorem callsOf_weight_le :
    ((callsOf entries).map fun msg => 1 + (strings (.object msg)).length).sum ≤
      (entries.map entry_weight).sum := by
  induction entries with
  | nil => exact le_rfl
  | cons entry entries ih =>
    rw [callsOf, filterMap_cons, map_cons, sum_cons]
    cases hmsg : call_of entry with
    | none => exact ih.trans (Nat.le_add_left ..)
    | some msg =>
      cases entry with
      | none => cases hmsg
      | some o =>
        have hlen := length_strings_le (call_of_eq_some hmsg).1
        rw [map_cons, sum_cons]
        exact Nat.add_le_add (Nat.add_le_add_left hlen 1) ih

theorem TraceFile.sound (h : TraceFile text) : Sound (2 ^ 64 - 1) (scan_profile text).prof := by
  refine (counts_trace (trace_entries text)).sound (fun msg hmsg s hs => ?_) ?_
  · obtain ⟨entry, hentry, hcall⟩ := mem_filterMap.mp hmsg
    cases entry with
    | none => cases hcall
    | some o => exact h.texts _ hentry o rfl s (mem_strings_members.mpr ⟨_, (call_of_eq_some hcall).1, hs⟩)
  · have hweight := trace_weight text
    have hsize := h.size
    exact callsOf_weight_le.trans (by rw [trace_entries]; omega)

theorem mem_net_scan : (∃ e ∈ (scan_profile text).prof.net, e.name = name) ↔
    ∃ entry ∈ trace_entries text, ∃ msg, call_of entry = some msg ∧ name = net_name msg ∧ net_name msg ≠ [] := by
  refine (counts_trace (trace_entries text)).net.exists_name.trans ?_
  simp only [callsOf, mem_map, mem_filterMap]
  constructor
  · rintro ⟨⟨msg, ⟨entry, hentry, hmsg⟩, rfl⟩, hne⟩
    exact ⟨entry, hentry, msg, hmsg, rfl, hne⟩
  · rintro ⟨entry, hentry, msg, hmsg, rfl, hne⟩
    exact ⟨⟨msg, ⟨entry, hentry, hmsg⟩, rfl⟩, hne⟩

end Retrace.Profiler
