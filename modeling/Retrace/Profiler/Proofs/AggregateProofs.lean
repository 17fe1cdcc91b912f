import Retrace.Profiler.Proofs.SizeProofs
import Retrace.Json.Proofs.SerializeProofs
import Retrace.Profiler.Document
import Retrace.Json.Proofs.Utf8Proofs

/-!
# What an aggregated profile holds

The names and paths that an entry of a trace adds are well-formed and not empty when the strings in it are, up to
the addresses that are cut.
-/

namespace Retrace.Profiler

open CLib Parson List

variable {s t text : Bytes} {msg o : JsonObject}

theorem eq_of_strcmp (h : strcmp s t = .eq) : s = t := by
  induction s generalizing t with
  | nil =>
    cases t with
    | nil => rfl
    | cons b t => cases h
  | cons a s ih =>
    cases t with
    | nil => cases h
    | cons b t =>
      rw [strcmp] at h
      split_ifs at h with hab hba
      obtain rfl : a = b := UInt8.le_antisymm (UInt8.not_lt.mp hba) (UInt8.not_lt.mp hab)
      rw [ih h]

theorem bsearch_loop_spec {fuel lo hi : Nat} (hlo : lo ≤ hi) (hhi : hi ≤ xs.length) :
    match bsearch_loop key xs name fuel lo hi with
    | .found i => ∃ x, xs[i]? = some x ∧ key x = name
    | .missing i => i ≤ xs.length := by
  induction fuel generalizing lo hi with
  | zero => exact hlo.trans hhi
  | succ fuel ih =>
    rw [bsearch_loop]
    split_ifs with hlt
    · have hmid : lo + (hi - lo) / 2 < hi := by omega
      obtain ⟨x, hx⟩ : ∃ x, xs[lo + (hi - lo) / 2]? = some x := ⟨_, getElem?_eq_getElem (by omega)⟩
      simp only [hx]
      cases hcmp : strcmp (key x) name with
      | eq => exact ⟨x, hx, eq_of_strcmp hcmp⟩
      | lt => exact ih (by omega) hhi
      | gt => exact ih (by omega) (by omega)
    · exact hlo.trans hhi

theorem bsearch_missing (h : bsearch key xs name = .missing i) : i ≤ xs.length := by
  have hspec := @bsearch_loop_spec _ key xs name xs.length _ _ (Nat.zero_le _) le_rfl
  rw [bsearch] at h
  rwa [h] at hspec

theorem forall_upsert {P Q : α → Prop} (h : ∀ x ∈ xs, P x) (hkeep : ∀ x, P x → Q x)
    (hf : ∀ x, P x → Q (f x)) (hnew : Q new) :
    ∀ x ∈ (match bsearch key xs name with
      | .found i => xs.modify i f
      | .missing i => xs.insertIdx i new), Q x := by
  intro x hx
  cases hprobe : bsearch key xs name with
  | found i =>
    rw [hprobe] at hx
    exact forall_modify (fun x hx => hkeep x (h x hx)) (fun x hx _ => hf x (h x hx)) x hx
  | missing i =>
    rw [hprobe] at hx
    rcases (mem_insertIdx (bsearch_missing hprobe)).mp hx with rfl | hx
    · exact hnew
    · exact hkeep x (h x hx)

def Counted (ok : Bytes → Prop) (k : Nat) (n : List ProfName) : Prop :=
  ∀ e ∈ n, ok e.name ∧ 1 ≤ e.count ∧ e.count ≤ k

theorem utf8_items_eq : utf8_items vs = vs.all utf8_strings := by
  induction vs with
  | nil => rfl
  | cons v vs ih => rw [utf8_items, all_cons, ih]

theorem utf8_members_eq : utf8_members ms = ms.all fun m => utf8_strings m.2 := by
  induction ms with
  | nil => rfl
  | cons m ms ih => rw [utf8_members, all_cons, ih]

theorem mem_strings_items : s ∈ strings_items vs ↔ ∃ v ∈ vs, s ∈ strings v := by
  rw [strings_items_eq, mem_flatMap]

theorem mem_strings_members : s ∈ strings_members ms ↔ ∃ m ∈ ms, s ∈ strings m.2 := by
  rw [strings_members_eq, mem_flatMap]

structure Text (s : Bytes) : Prop where
  utf8 : is_valid_utf8 s = true
  nul : 0 ∉ s

theorem text_of_mem_strings (h : WellFormed P depth v) (hutf8 : utf8_strings v = true) :
    ∀ s ∈ strings v, Text s := by
  induction h with
  | null => simp [strings]
  | boolean b => simp [strings]
  | number hd => simp [strings]
  | string hs =>
    intro s hmem
    obtain rfl := mem_singleton.mp hmem
    exact ⟨hutf8, hs⟩
  | array hitems ih =>
    intro s hmem
    rw [utf8_strings, utf8_items_eq, all_eq_true] at hutf8
    obtain ⟨v, hv, hs⟩ := mem_strings_items.mp hmem
    exact ih v hv (hutf8 v hv) s hs
  | object hnames hzero hvalues ih =>
    intro s hmem
    rw [utf8_strings, utf8_members_eq, all_eq_true] at hutf8
    obtain ⟨m, hm, hs⟩ := mem_strings_members.mp hmem
    exact ih m hm (hutf8 m hm) s hs

theorem mem_of_get_value (h : json_object_get_value (some o) name = some v) : (name, v) ∈ o := by
  rw [json_object_get_value, Option.bind_some] at h
  obtain ⟨l₁, l₂, rfl, -⟩ := lookup_eq_some_iff.mp h
  simp

theorem mem_strings_of_get_value
    (h : json_object_get_value (some o) name = some v) (hs : s ∈ strings v) : s ∈ strings (.object o) :=
  mem_strings_members.mpr ⟨_, mem_of_get_value h, hs⟩

theorem mem_strings_of_get_string (h : json_object_get_string (some o) name = some s) :
    s ∈ strings (.object o) := by
  rw [json_object_get_string] at h
  split at h
  · next x hx =>
    cases h
    exact mem_strings_of_get_value hx (by simp [strings])
  · cases h

theorem length_strings_le (h : m ∈ o) : (strings m.2).length ≤ (strings (.object o)).length := by
  obtain ⟨l₁, l₂, rfl⟩ := append_of_mem h
  simp only [strings, strings_members_eq, flatMap_append, flatMap_cons, length_append]
  omega

def call_of (entry : Option JsonObject) : Option JsonObject :=
  (json_object_get_object entry (bytes "message")).filter is_call

theorem call_of_eq_some (h : call_of (some o) = some msg) :
    (bytes "message", .object msg) ∈ o ∧ is_call msg = true := by
  obtain ⟨hmsg, hcall⟩ := Option.filter_eq_some_iff.mp h
  obtain ⟨v, hv, hobj⟩ := Option.bind_eq_some_iff.mp hmsg
  cases v with
  | object m =>
    obtain rfl : m = msg := by simpa [json_value_get_object] using hobj
    exact ⟨mem_of_get_value hv, hcall⟩
  | _ => simp [json_value_get_object] at hobj

def Profile.count (p : Profile) (o : JsonObject) : Profile :=
  { p with
    entries := p.entries + 1
    no_pid := if json_object_get_number (some o) (bytes "pid") = 0 then p.no_pid + 1 else p.no_pid }

theorem prof_add_entry_some (p : Profile) (o : JsonObject) :
    prof_add_entry p (some o) = match call_of (some o) with
      | none => p.count o
      | some msg => add_call msg (p.count o) := by
  rw [prof_add_entry, call_of, Profile.count]
  cases hmsg : json_object_get_object (some o) (bytes "message") with
  | none => rfl
  | some msg =>
    by_cases hcall : is_call msg = true
    · simp [Option.filter, hcall]
    · simp [Option.filter, hcall]

theorem text_append (hs : Text s) (ht : Text t) : Text (s ++ t) :=
  ⟨is_valid_utf8_append hs.utf8 ht.utf8, by simp [hs.nul, ht.nul]⟩

theorem text_of_ascii (h : ∀ c ∈ s, c < 0x80 ∧ c ≠ 0) : Text s :=
  ⟨is_valid_utf8_of_ascii fun c hc => (h c hc).1, fun h0 => (h 0 h0).2 rfl⟩

theorem text_of_append_ascii (hs : ∀ c ∈ s, c < 0x80) (h : Text (s ++ t)) : Text t := by
  induction s with
  | nil => exact h
  | cons c s ih =>
    obtain ⟨hc, hs⟩ := forall_mem_cons.mp hs
    refine ih hs ⟨(is_valid_utf8_of_append_ascii (s := []) hc h.utf8).2, fun h0 => h.nul ?_⟩
    exact mem_cons_of_mem c h0

theorem text_drop_of_prefix {lit : Bytes} (hlit : ∀ c ∈ lit, c < 0x80) (h : lit.isPrefixOf s = true)
    (hs : Text s) :
    Text (s.drop lit.length) := by
  obtain ⟨t, rfl⟩ := isPrefixOf_iff_prefix.mp h
  rw [drop_left]
  exact text_of_append_ascii hlit hs

theorem isdigit_lt {c : UInt8} (h : isdigit c = true) : c < 0x80 := by
  simp only [isdigit, Bool.and_eq_true, decide_eq_true_eq, UInt8.le_iff_toNat_le, UInt8.lt_iff_toNat_lt,
    UInt8.reduceToNat] at *
  omega

theorem text_strip_nt (h : Text s) : Text (strip_nt s).1 ∧ Text (strip_nt s).2 := by
  have hnil : Text [] := ⟨rfl, by simp⟩
  unfold strip_nt
  split_ifs with h1 h2 h3 h4
  · exact ⟨hnil, text_drop_of_prefix (by decide : ∀ c ∈ bytes "\\??\\", c < 0x80) h1 h⟩
  · exact ⟨hnil, text_drop_of_prefix (by decide : ∀ c ∈ bytes "//?/", c < 0x80) h2.1 h⟩
  · exact ⟨hnil, text_drop_of_prefix (by decide : ∀ c ∈ bytes "\\\\?\\", c < 0x80) h3 h⟩
  · have hrest := text_drop_of_prefix (by decide : ∀ c ∈ bytes "\\Device\\HarddiskVolume", c < 0x80) h4 h
    refine ⟨?_, ?_⟩
    · dsimp only
      split_ifs with hvol
      · refine text_of_ascii fun c hc => ?_
        generalize digitsVal 10 ((s.drop 22).takeWhile isdigit) = vol at hvol hc
        rcases mem_cons.mp hc with rfl | hc
        · obtain ⟨hlo, hhi⟩ := hvol
          interval_cases vol <;> decide
        · rw [mem_singleton.mp hc]
          decide
      · exact hnil
    · refine text_of_append_ascii (s := (s.drop 22).takeWhile isdigit) (fun c hc => ?_) ?_
      · exact isdigit_lt (mem_takeWhile_imp hc)
      · rw [takeWhile_append_dropWhile]
        exact hrest
  · exact ⟨hnil, h⟩

theorem text_map_slash (h : Text s) : Text (s.map fun c => if c = backslash then slash else c) := by
  refine ⟨is_valid_utf8_map ?_ ?_ h.utf8, ?_⟩
  · intro c hc
    split_ifs
    · decide
    · exact hc
  · intro c hc
    rw [if_neg]
    rintro rfl
    exact absurd hc (by decide)
  · intro h0
    obtain ⟨c, hc, heq⟩ := mem_map.mp h0
    split_ifs at heq with hb
    · exact absurd heq (by decide)
    · exact h.nul (heq ▸ hc)

theorem text_normalize (hs : Text s) (h : corr_normalize s outsz = some out) : Text out ∧ out ≠ [] := by
  obtain ⟨hdrive, hpath⟩ := text_strip_nt hs
  have hout := text_append hdrive (text_map_slash hpath)
  simp only [corr_normalize] at h
  generalize (strip_nt s).1 ++ (strip_nt s).2.map (fun c => if c = backslash then slash else c) = out0 at h hout
  rw [ite_eq_iff] at h
  obtain ⟨-, h⟩ | ⟨-, h⟩ := h
  · cases h
  · split_ifs at h with hlast hlike hlike
    · cases h
      obtain ⟨t, rfl⟩ := getLast?_eq_some_iff.mp hlast.2
      rw [dropLast_concat] at hlike ⊢
      refine ⟨⟨(is_valid_utf8_of_append_ascii (by decide) hout.utf8).1, fun h0 => hout.nul (by simp [h0])⟩, ?_⟩
      rintro rfl
      cases hlike
    · cases h
      refine ⟨hout, ?_⟩
      rintro rfl
      cases hlike

def collect_step (func detail : Option Bytes) (p : Profile) (s : Bytes) : Profile := collect_string func detail s p

mutual

theorem collect_msg_eq : ∀ (v : JsonValue) (p : Profile),
    collect_msg func detail v p = (strings v).foldl (collect_step func detail) p
  | .null, _ => rfl
  | .boolean _, _ => rfl
  | .number _, _ => rfl
  | .string _, _ => rfl
  | .array items, p => by
    rw [collect_msg, strings]
    exact collect_items_eq items p
  | .object members, p => by
    rw [collect_msg, strings]
    exact collect_members_eq members p

theorem collect_items_eq : ∀ (vs : List JsonValue) (p : Profile),
    collect_items func detail vs p = (strings_items vs).foldl (collect_step func detail) p
  | [], _ => rfl
  | v :: vs, p => by
    rw [collect_items, collect_items_eq vs, collect_msg_eq v, strings_items, foldl_append]

theorem collect_members_eq : ∀ (ms : List (Bytes × JsonValue)) (p : Profile),
    collect_members func detail ms p = (strings_members ms).foldl (collect_step func detail) p
  | [], _ => rfl
  | (_, v) :: ms, p => by
    rw [collect_members, collect_members_eq ms, collect_msg_eq v, strings_members, foldl_append]

end

/-- A profile whose names and paths can be written, with counters up to `k`. Addresses are cut, so of them less is
known. -/
structure Sound (k : Nat) (p : Profile) : Prop where
  functions : Counted (fun s => Text s ∧ s ≠ []) k p.functions
  env : Counted (fun s => Text s ∧ s ≠ []) k p.env
  net : Counted (fun s => 0 ∉ s ∧ s ≠ []) k p.net
  accesses : ∀ a ∈ p.accesses, (Text a.path ∧ a.path ≠ []) ∧ 1 ≤ a.hits ∧ a.hits ≤ k

theorem text_getD (ho : ∀ s ∈ strings (.object o), Text s) (name : Bytes) :
    Text ((json_object_get_string (some o) name).getD []) := by
  cases h : json_object_get_string (some o) name with
  | none => exact ⟨rfl, by simp⟩
  | some s => exact ho s (mem_strings_of_get_string h)

def env_name (msg : JsonObject) : Bytes :=
  match json_object_get_array (some msg) (bytes "*name") with
  | some deref => (json_array_get_string deref 0).getD []
  | none => (json_object_get_string (some msg) (bytes "name")).getD []

theorem collect_env_eq : collect_env (some msg) p = { p with env := prof_names_add p.env (env_name msg) } := by
  rw [collect_env, env_name]
  cases json_object_get_array (some msg) (bytes "*name") <;> rfl

theorem text_env_name (hmsg : ∀ s ∈ strings (.object msg), Text s) : Text (env_name msg) := by
  unfold env_name
  split
  · next deref hderef =>
    cases hget : json_array_get_string deref 0 with
    | none => exact ⟨rfl, by simp⟩
    | some s =>
      rw [json_array_get_string] at hget
      rw [json_object_get_array] at hderef
      split at hderef
      · next a ha =>
        cases hderef
        split at hget
        · next x hx =>
          cases hget
          refine hmsg _ (mem_strings_of_get_value ha (mem_strings_items.mpr ⟨_, mem_of_getElem? hx, ?_⟩))
          simp [strings]
        · cases hget
      · cases hderef
  · exact text_getD hmsg _

def net_name (msg : JsonObject) : Bytes :=
  let host := (json_object_get_string (some msg) (bytes "host")).getD []
  let port := (json_object_get_string (some msg) (bytes "port")).getD []
  let addr := (json_object_get_string (some msg) (bytes "addr")).getD []
  if addr ≠ [] then addr
  else if host ≠ [] then snprintf 256 (if port ≠ [] then host ++ bytes ":" ++ port else host)
  else []

theorem collect_net_eq : collect_net (some msg) p = { p with net := prof_names_add p.net (net_name msg) } := by
  unfold collect_net net_name
  dsimp only
  split_ifs
  · rfl
  · rfl
  · rfl
  · simp [prof_names_add]

theorem nul_net_name (hmsg : ∀ s ∈ strings (.object msg), Text s) : 0 ∉ net_name msg := by
  have hhost := (text_getD hmsg (bytes "host")).nul
  have hport := (text_getD hmsg (bytes "port")).nul
  have haddr := (text_getD hmsg (bytes "addr")).nul
  unfold net_name
  dsimp only
  split_ifs
  · exact haddr
  · refine not_mem_zero_snprintf ?_ 256
    simpa [hhost, hport] using (by decide : (0 : UInt8) ∉ bytes ":")
  · exact not_mem_zero_snprintf hhost 256
  · simp

theorem add_call_eq (msg : JsonObject) (p : Profile) :
    add_call msg p = (strings (.object msg)).foldl
      (collect_step (json_object_get_string (some msg) (bytes "func"))
        (json_object_get_string (some msg) (bytes "detail")))
      { p with
        functions := prof_names_add p.functions ((json_object_get_string (some msg) (bytes "func")).getD [])
        env := prof_names_add p.env (env_name msg)
        net := prof_names_add p.net (net_name msg) } := by
  rw [add_call, collect_msg_eq, collect_net_eq, collect_env_eq]
  rfl

def Texts (entry : Option JsonObject) : Prop := ∀ o, entry = some o → ∀ s ∈ strings (.object o), Text s

theorem wellFormed_of_mem_scan {o : JsonObject} {text : Bytes} (h : some o ∈ (corr_stream_scan text).1) :
    WellFormed IsDouble (MAX_NESTING + 1) (.object o) := by
  simp only [corr_stream_scan, mem_filterMap, mem_map] at h
  obtain ⟨v, ⟨slice, -, hv⟩, ho⟩ := h
  obtain ⟨w, rfl, hw⟩ := Option.map_eq_some_iff.mp ho
  cases w with
  | object m =>
    obtain rfl : m = o := by simpa [json_value_get_object] using hw
    exact wellFormed_json_parse hv
  | _ => simp [json_value_get_object] at hw

theorem TraceFile.texts (h : TraceFile text) : ∀ entry ∈ trace_entries text, Texts entry := by
  rintro entry hentry o rfl
  exact text_of_mem_strings (wellFormed_of_mem_scan hentry) (h.utf8 o hentry)

end Retrace.Profiler
