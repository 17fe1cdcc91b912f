import Retrace.Core.Sandbox
import Retrace.Core.Proofs.PathSetProofs

/-!
# What the sandbox polices

Of a call only the first string among its first two arguments is held against the path lists. A call is
classified as a write by its second parameter, which for `openat` is the pointer to the path.
-/

namespace Retrace.Core

open CLib List Option

variable {path : Bytes} {prototype : FuncPrototype} {ps : SandboxParams}

/-- A string is matched by an entry of the list that allows and by none of the list that denies, where they are
given. -/
def Admits (allow denied : Option PolicyArray) (s : Bytes) : Prop :=
  (∀ list ∈ allow, ∃ e, some e ∈ list ∧ path_matches s e = true) ∧
    ∀ list ∈ denied, ∀ e, some e ∈ list → path_matches s e = false

def Passes (ps : SandboxParams) (path : Bytes) : Prop := Admits ps.allow_paths ps.deny_paths path

theorem admits_iff (s : Bytes) (allow denied : Option PolicyArray) : Admits allow denied s ↔
    (allow.any fun list => !fresh_contains s list) = false ∧
      (denied.any fun list => fresh_contains s list) = false := by
  have hmatch : ∀ list, fresh_contains s list = true ↔
      ∃ e, some e ∈ list ∧ path_matches s e = true := fun list => by
    rw [fresh_contains_eq_walk, walk_iff]
  refine and_congr ?_ ?_
  · cases allow <;> simp [hmatch]
  · cases denied with
    | none => simp
    | some list =>
      rw [any_some, ← Bool.not_eq_true, hmatch]
      simp

theorem check_paths_ret (hdecoy : ps.decoy_dir = none) :
    (check_paths mem fake t_ctx ps path_idx path_arg).ret = 0 ↔ Passes ps path_arg := by
  rw [Passes, admits_iff, check_paths]
  split_ifs with hallow hdeny
  · simp [refuse, hdecoy, deny, hallow]
  · simp [refuse, hdecoy, deny, hdeny]
  · simp only [Bool.not_eq_true] at hallow hdeny
    simp [hallow, hdeny]

theorem check_env_iff : check_env t_ctx ps (some name) = none ↔
    (is_env_func t_ctx.prototype.name = true → Admits ps.allow_env ps.deny_env name) := by
  rw [admits_iff, check_env, bind_some]
  split_ifs with henv hdeny hallow
  · simp [henv, hdeny]
  · simp [henv, hallow]
  · simp only [Bool.not_eq_true] at hallow hdeny
    simp [henv, hallow, hdeny]
  · simp [henv]

def FirstString (mem : Memory) (params : List FuncParam) (path : Bytes) : Prop :=
  ∃ j q, j < 2 ∧ params[j]? = some q ∧ q.isString = true ∧
    (∀ k < j, ∀ r, params[k]? = some r → r.isString = false) ∧ mem q.val = path

theorem find_path_arg_iff : (∃ i, find_path_arg mem params = some (i, path)) ↔ FirstString mem params path := by
  constructor
  · rintro ⟨i, h⟩
    obtain ⟨j, hj, hmap⟩ := bind_eq_some_iff.mp h
    obtain ⟨q, hq, heq⟩ := map_eq_some_iff.mp hmap
    cases heq
    obtain ⟨hlt, hstring, hbefore⟩ := findIdx?_eq_some_iff_getElem.mp hj
    rw [length_take] at hlt
    refine ⟨i, q, by omega, hq, ?_, ?_, rfl⟩
    · rw [getElem_take] at hstring
      obtain ⟨_, rfl⟩ := List.getElem?_eq_some_iff.mp hq
      exact hstring
    · intro k hk r hr
      have hnot := hbefore k hk
      rw [getElem_take] at hnot
      obtain ⟨_, rfl⟩ := List.getElem?_eq_some_iff.mp hr
      simpa using hnot
  · rintro ⟨j, q, hj, hq, hstring, hbefore, rfl⟩
    obtain ⟨hlt, rfl⟩ := List.getElem?_eq_some_iff.mp hq
    have hlen : j < (params.take 2).length := by
      rw [length_take]
      omega
    have hidx : (params.take 2).findIdx? FuncParam.isString = some j := by
      rw [findIdx?_eq_some_iff_getElem]
      refine ⟨hlen, by rw [getElem_take]; exact hstring, fun k hk => ?_⟩
      rw [getElem_take]
      simpa using hbefore k hk _ (getElem?_eq_getElem (by omega))
    exact ⟨j, by rw [find_path_arg, hidx, bind_some, hq, map_some]⟩

/-- The call is not of a class that is denied, and the first string among its first two parameters is a
variable and a path that are admitted. -/
def LetThrough (mem : Memory) (t_ctx : ThreadContext) (ps : SandboxParams) : Prop :=
  (∀ list ∈ ps.deny_classes, call_is_write mem t_ctx = true → some (bytes "write") ∉ list) ∧
    ∀ path, FirstString mem t_ctx.params path →
      (is_env_func t_ctx.prototype.name = true → Admits ps.allow_env ps.deny_env path) ∧ Passes ps path

theorem classes_deny_iff : ps.deny_classes.any (classes_deny mem t_ctx) = true ↔
    ¬∀ list ∈ ps.deny_classes, call_is_write mem t_ctx = true → some (bytes "write") ∉ list := by
  cases ps.deny_classes <;> simp [classes_deny]

theorem ia_sandbox_ret (hlists : ps.deny_paths ≠ none ∨ ps.allow_paths ≠ none) (hdecoy : ps.decoy_dir = none) :
    (ia_sandbox mem fake t_ctx (some ps)).ret = 0 ↔ LetThrough mem t_ctx ps := by
  rw [ia_sandbox, LetThrough]
  dsimp only
  rw [if_neg (by tauto)]
  split_ifs with hclass
  · exact iff_of_false (by simp [deny]) fun h => classes_deny_iff.mp hclass h.1
  · rw [classes_deny_iff, not_not] at hclass
    cases hfound : find_path_arg mem t_ctx.params with
    | none =>
      refine iff_of_true rfl ⟨hclass, fun path hfirst => ?_⟩
      obtain ⟨i, hi⟩ := find_path_arg_iff.mpr hfirst
      rw [hfound] at hi
      cases hi
    | some x =>
      obtain ⟨i, path⟩ := x
      have hfirst : ∀ other, FirstString mem t_ctx.params other ↔ path = other := fun other => by
        rw [← find_path_arg_iff, hfound]
        simp
      simp only [hfirst, forall_eq', map_some, ← check_env_iff, and_iff_right hclass]
      cases check_env t_ctx ps (some path) with
      | some why => simp [deny]
      | none => simp [check_paths_ret hdecoy]

/-- Every path argument of a call that the action lets through passes the policy: `names_path` says which of
the parameters name a path. -/
def JailHolds (mem : Memory) (fake : Option Word) (t_ctx : ThreadContext) (ps : SandboxParams)
    (names_path : Nat → Prop) : Prop :=
  (ia_sandbox mem fake t_ctx (some ps)).ret = 0 →
    ∀ i p, t_ctx.params[i]? = some p → p.isString = true → names_path i → Passes ps (mem p.val)

/-- The jail holds for a call under a policy exactly when, unless the call is refused by its class or by the first
string among its first two parameters, the other paths pass as well. -/
theorem jail_holds_iff (mem : Memory) (fake : Option Word) (t_ctx : ThreadContext) (ps : SandboxParams)
    (names_path : Nat → Prop) (hlists : ps.deny_paths ≠ none ∨ ps.allow_paths ≠ none)
      (hdecoy : ps.decoy_dir = none) :
    JailHolds mem fake t_ctx ps names_path ↔
      (LetThrough mem t_ctx ps → ∀ i p, t_ctx.params[i]? = some p → p.isString = true → names_path i →
        ¬FirstString mem t_ctx.params (mem p.val) → Passes ps (mem p.val)) := by
  rw [JailHolds, ia_sandbox_ret hlists hdecoy]
  constructor
  · exact fun h hthrough i p hp hstring hpath _ => h hthrough i p hp hstring hpath
  · intro h hthrough i p hp hstring hpath
    by_cases hfirst : FirstString mem t_ctx.params (mem p.val)
    · exact (hthrough.2 _ hfirst).2
    · exact h hthrough i p hp hstring hpath hfirst

def twoPaths (oldpath newpath : Bytes) : Memory :=
  fun addr => if addr = 16 then oldpath else if addr = 32 then newpath else []

def linkCall : ThreadContext :=
  { prototype := link_prototype
    params := [⟨szParam (bytes "oldpath"), 16, false⟩, ⟨szParam (bytes "newpath"), 32, false⟩,
      ⟨plainParam (bytes "owner"), 0, false⟩] }

def noEtc : SandboxParams := { deny_paths := some [some (bytes "/etc/")] }

theorem firstString_linkCall : FirstString (twoPaths a b) linkCall.params path ↔ path = a := by
  have hfound : find_path_arg (twoPaths a b) linkCall.params = some (0, a) := rfl
  rw [← find_path_arg_iff, hfound]
  simp [eq_comm]

theorem passes_noEtc : Passes noEtc path ↔ path_matches path (bytes "/etc/") = false := by
  simp [Passes, Admits, noEtc]

/-- A link to a file in `/etc/` is refused by its first path. -/
theorem jail_holds_oldpath :
    JailHolds (twoPaths (bytes "/etc/passwd") (bytes "/tmp/b")) none linkCall noEtc (· < 2) := by
  refine (jail_holds_iff _ none linkCall noEtc (· < 2) (by simp [noEtc]) rfl).mpr fun hthrough => ?_
  have hpass := (hthrough.2 _ (firstString_linkCall.mpr rfl)).2
  exact absurd (passes_noEtc.mp hpass) (by decide)

/-- The second path of `link` is not looked at: with `/etc/` denied the call is let through. -/
theorem jail_misses_newpath : CallOf link_prototype linkCall ∧
    ¬JailHolds (twoPaths (bytes "/tmp/a") (bytes "/etc/passwd")) none linkCall noEtc (· < 2) := by
  refine ⟨⟨rfl, rfl⟩, fun h => ?_⟩
  have hthrough : LetThrough (twoPaths (bytes "/tmp/a") (bytes "/etc/passwd")) linkCall noEtc := by
    refine ⟨by simp [noEtc], fun path hpath => ?_⟩
    rw [firstString_linkCall.mp hpath]
    exact ⟨fun henv => absurd henv (by decide), passes_noEtc.mpr (by decide)⟩
  have hpass := h ((ia_sandbox_ret (by simp [noEtc]) rfl).mpr hthrough) 1 _ rfl (by decide) (by decide)
  exact absurd (passes_noEtc.mp hpass) (by decide)

def OpeningCall (t_ctx : ThreadContext) : Prop :=
  CallOf fopen_prototype t_ctx ∨ CallOf open_prototype t_ctx ∨ CallOf openat_prototype t_ctx

def accessParam (t_ctx : ThreadContext) : Option FuncParam :=
  if t_ctx.prototype = openat_prototype then t_ctx.params[2]? else t_ctx.params[1]?

def RequestsWrite (mem : Memory) (t_ctx : ThreadContext) : Prop :=
  ∃ p ∈ accessParam t_ctx,
    if t_ctx.prototype = fopen_prototype then p.val ≠ 0 ∧ mode_writes (mem p.val) = true
    else access_writes p.val = true

def DeniesWrites (ps : SandboxParams) : Prop := ps.deny_classes = some [some (bytes "write")]

/-- The call is classified as it asks for access: under a policy that denies writes it is refused when it asks
for write access, and an `open` with the same flags is classified alike. -/
structure WriteClass (mem : Memory) (t_ctx : ThreadContext) : Prop where
  classified : call_is_write mem t_ctx = true ↔ RequestsWrite mem t_ctx
  denied : RequestsWrite mem t_ctx → ∀ fake ps, DeniesWrites ps → (ia_sandbox mem fake t_ctx (some ps)).ret = -1
  alike : ∀ other, CallOf open_prototype other → t_ctx.prototype = openat_prototype →
    (accessParam other).map FuncParam.val = (accessParam t_ctx).map FuncParam.val →
      call_is_write mem other = call_is_write mem t_ctx

theorem ia_sandbox_denies (hps : DeniesWrites ps) (h : call_is_write mem t_ctx = true) :
    (ia_sandbox mem fake t_ctx (some ps)).ret = -1 := by
  have hclass : ps.deny_classes.any (classes_deny mem t_ctx) = true := by
    rw [hps]
    simp [classes_deny, h]
  rw [ia_sandbox]
  dsimp only
  rw [if_neg (by rw [hps]; simp), if_pos hclass]
  rfl

theorem CallOf.params_eq (h : CallOf prototype t_ctx) (i : Nat) :
    t_ctx.params[i]?.map FuncParam.param_meta = prototype.params[i]? := by
  rw [← getElem?_map, h.2]

theorem CallOf.length_params (h : CallOf prototype t_ctx) : t_ctx.params.length = prototype.params.length := by
  rw [← length_map FuncParam.param_meta, h.2]

theorem call_is_write_open (h : CallOf open_prototype t_ctx) :
    call_is_write mem t_ctx = t_ctx.params[1]?.any fun p => access_writes p.val := by
  have hlen := h.length_params
  rw [call_is_write, h.1]
  rw [if_neg (by decide), if_neg (by rintro ⟨hname, -⟩; revert hname; decide),
    if_pos ⟨.inl rfl, by rw [hlen]; decide⟩]

theorem call_is_write_openat (h : CallOf openat_prototype t_ctx) :
    call_is_write mem t_ctx = t_ctx.params[1]?.any fun p => access_writes p.val := by
  have hlen := h.length_params
  rw [call_is_write, h.1]
  rw [if_neg (by decide), if_neg (by rintro ⟨hname, -⟩; revert hname; decide),
    if_pos ⟨.inr rfl, by rw [hlen]; decide⟩]

theorem call_is_write_fopen (h : CallOf fopen_prototype t_ctx) :
    call_is_write mem t_ctx = true ↔ RequestsWrite mem t_ctx := by
  have hlen := h.length_params
  have hmeta := h.params_eq 1
  rw [call_is_write, RequestsWrite, accessParam, h.1]
  rw [if_neg (by decide), if_pos ⟨rfl, by rw [hlen]; decide⟩, if_neg (by decide)]
  cases hp : t_ctx.params[1]? with
  | none => simp
  | some p =>
    rw [hp, map_some] at hmeta
    obtain hmeta : p.param_meta = szParam (bytes "mode") := some.inj hmeta
    simp [hmeta, szParam]

def SameAccess (a b : Option FuncParam) : Prop :=
  (∃ p ∈ a, access_writes p.val = true) ↔ ∃ p ∈ b, access_writes p.val = true

theorem any_access_iff (a : Option FuncParam) :
    (a.any fun p => access_writes p.val) = true ↔ ∃ p ∈ a, access_writes p.val = true := by
  cases a <;> simp

/-- Every function that writes is refused; an opening call is classified as it asks for access exactly when it
is not an `openat` whose path pointer has other low bits than its flags. -/
theorem write_class_iff (mem : Memory) (t_ctx : ThreadContext) :
    (t_ctx.prototype.name ∈ g_write_funcs →
        ∀ fake ps, DeniesWrites ps → (ia_sandbox mem fake t_ctx (some ps)).ret = -1) ∧
      (OpeningCall t_ctx →
        (WriteClass mem t_ctx ↔
          (t_ctx.prototype = openat_prototype → SameAccess t_ctx.params[1]? t_ctx.params[2]?))) := by
  constructor
  · intro hname fake ps hps
    refine ia_sandbox_denies hps ?_
    have hfunc : is_write_func t_ctx.prototype.name = true := contains_iff_mem.mpr hname
    rw [call_is_write, if_pos hfunc]
  · intro hcall
    -- Everything but the first part follows from it.
    have hsuff : (call_is_write mem t_ctx = true ↔ RequestsWrite mem t_ctx) → WriteClass mem t_ctx := by
      intro hclass
      refine ⟨hclass, fun hreq fake ps hps => ia_sandbox_denies hps (hclass.mpr hreq), ?_⟩
      intro other hother hproto hsame
      rw [Bool.eq_iff_iff, hclass, call_is_write_open hother, any_access_iff, RequestsWrite, hproto]
      rw [accessParam, hother.1, if_neg (by decide)] at hsame
      simp only [if_neg (by decide : ¬ openat_prototype = fopen_prototype)]
      cases hp : other.params[1]? with
      | none =>
        rw [hp, map_none, eq_comm, map_eq_none_iff] at hsame
        simp [hsame]
      | some p =>
        rw [hp, map_some, eq_comm, map_eq_some_iff] at hsame
        obtain ⟨q, hq, hval⟩ := hsame
        simp [hq, hval]
    rcases hcall with hcall | hcall | hcall
    · refine iff_of_true (hsuff (call_is_write_fopen hcall)) ?_
      rw [hcall.1]
      intro h
      exact absurd h (by decide)
    · refine iff_of_true (hsuff ?_) ?_
      · rw [call_is_write_open hcall, any_access_iff, RequestsWrite, accessParam, hcall.1, if_neg (by decide)]
        simp only [if_neg (by decide : ¬ open_prototype = fopen_prototype)]
      · rw [hcall.1]
        intro h
        exact absurd h (by decide)
    · have hclass : (call_is_write mem t_ctx = true ↔ RequestsWrite mem t_ctx) ↔
          SameAccess t_ctx.params[1]? t_ctx.params[2]? := by
        rw [call_is_write_openat hcall, any_access_iff, RequestsWrite, accessParam, hcall.1,
          if_pos rfl, SameAccess]
        simp only [if_neg (by decide : ¬ openat_prototype = fopen_prototype)]
      exact ⟨fun h _ => hclass.mp h.classified, fun h => hsuff (hclass.mpr (h hcall.1))⟩

def openatCall (path flags : Word) : ThreadContext :=
  { prototype := openat_prototype
    params := [⟨plainParam (bytes "dirfd"), -100, false⟩, ⟨szParam (bytes "path"), path, false⟩,
      ⟨plainParam (bytes "flags"), flags, false⟩] }

/-- An aligned path opened for reading is classified as it asks. -/
theorem write_class_openat_read : WriteClass (fun _ => []) (openatCall 16 0) := by
  refine ((write_class_iff (fun _ => []) (openatCall 16 0)).2 (.inr (.inr ⟨rfl, rfl⟩))).mpr fun _ => ?_
  simp [SameAccess, openatCall, access_writes]

/-- With its path at an aligned address `openat` for writing is let through where writes are denied. -/
theorem openat_write_passes :
    (ia_sandbox (fun _ => bytes "/x") none (openatCall 16 1)
      (some { deny_classes := some [some (bytes "write")] })).ret = 0 ∧
      RequestsWrite (fun _ => bytes "/x") (openatCall 16 1) ∧ CallOf openat_prototype (openatCall 16 1) := by
  have hclass : call_is_write (fun _ => bytes "/x") (openatCall 16 1) = false := by
    rw [call_is_write_openat ⟨rfl, rfl⟩]
    rfl
  have henv : is_env_func (openatCall 16 1).prototype.name = false := by decide
  have hfound : find_path_arg (fun _ => bytes "/x") (openatCall 16 1).params = some (1, bytes "/x") := by decide
  have hproto : (openatCall 16 1).prototype = openat_prototype := rfl
  refine ⟨?_, ⟨⟨plainParam (bytes "flags"), 1, false⟩, ?_, ?_⟩, rfl, rfl⟩
  · generalize openatCall 16 1 = t_ctx at hclass henv hfound ⊢
    rw [ia_sandbox]
    simp [classes_deny, hclass, check_env, henv, hfound, check_paths]
  · rw [accessParam, if_pos hproto]
    rfl
  · rw [hproto, if_neg (by decide)]
    decide

end Retrace.Core
