import Retrace.Profiler.Jail
import Retrace.Core.Proofs.ScriptResolverProofs
import Retrace.Json.Proofs.BuildProofs

/-!
# When the clock is pinned

The script that pins the clock puts its number where the action does not look, so the action fails and the call
returns 0. A script for `time` or for every function that stands before it calls the real function.
-/

namespace Retrace.Profiler

open CLib Parson Retrace.Core Enforce List

section

variable {env : Surroundings} {paths_src : Profile} {s : CallState}

theorem jail_script_name (name : Bytes) :
    json_object_get_string (some (jail_script paths_src opts name)) (bytes "func_name") =
      if is_valid_utf8 (cstr name) then some (cstr name) else none := by
  unfold jail_script json_object_set_string json_value_init_string
  split_ifs <;> rfl

theorem jail_script_plain :
    json_object_get_array (some (jail_script paths_src opts name)) (bytes "caller_matches") = none := by
  unfold jail_script json_object_set_string json_value_init_string
  split_ifs <;> rfl

theorem allow_paths_jail : (sandbox_params (jail_params paths_src opts)).allow_paths ≠ none := by
  have hset : ∀ o : JsonObject, ∀ dir : Bytes,
      (json_object_set_string o (bytes "decoy_dir") dir).lookup (bytes "allow_paths") =
        o.lookup (bytes "allow_paths") := by
    intro o dir
    unfold json_object_set_string
    split
    · rfl
    · exact lookup_set_value_of_ne _ (by decide)
  have hallow : (jail_params paths_src opts).lookup (bytes "allow_paths") =
      some (.array ((paths_src.accesses.map ProfAccess.path).foldl json_array_append_string [])) := by
    unfold jail_params
    cases opts.bind ProfJailOpts.decoy_dir with
    | none =>
      dsimp only
      split_ifs <;> rfl
    | some dir =>
      dsimp only
      rw [hset]
      split_ifs <;> rfl
  simp [sandbox_params, policy_array, json_object_get_array, json_object_get_value, hallow]

theorem sandbox_time (ht : CallOf time_prototype s.t_ctx) (hallow : ps.allow_paths ≠ none) :
    ia_sandbox s.mem env.fake s.t_ctx (some ps) = ⟨0, s.t_ctx, s.mem, none⟩ := by
  obtain ⟨hproto, hparams⟩ := ht
  have hwrite : call_is_write s.mem s.t_ctx = false := by
    simp only [call_is_write, hproto]
    rw [if_neg (by decide), if_neg fun h => absurd h.1 (by decide), if_neg fun h => absurd h.1 (by decide)]
  have hclasses : (ps.deny_classes.any (classes_deny s.mem s.t_ctx)) = false := by
    cases ps.deny_classes <;> simp [classes_deny, hwrite]
  have hfound : find_path_arg s.mem s.t_ctx.params = none := by
    obtain ⟨p, hp, hmeta⟩ : ∃ p, s.t_ctx.params = [p] ∧ p.param_meta = ⟨bytes "tloc", true, bytes "long"⟩ := by
      obtain ⟨p, rest, hcons, hmeta, hrest⟩ := map_eq_cons_iff.1 hparams
      exact ⟨p, by rw [hcons, map_eq_nil_iff.1 hrest], hmeta⟩
    have hstring : p.isString = false := by
      rw [FuncParam.isString, hmeta, Bool.and_eq_false_iff]
      exact .inr (by decide)
    simp [find_path_arg, hp, findIdx?_cons, hstring]
  simp [ia_sandbox, hallow, hclasses, hfound, check_env]

theorem action_loop_cons
    (hname : json_object_get_string (json_value_get_object v) (bytes "action_name") = some name)
    (hget : retrace_actions_get env name = some action_func) (rest : List JsonValue) :
    action_loop env (v :: rest) s =
      let r := action_func s (json_object_get_object (json_value_get_object v) (bytes "action_params"))
      if r.1 ≠ 0 then r.2 else action_loop env rest r.2 := by
  rw [action_loop]
  simp only [hname, hget]

theorem run_jail_script (ht : CallOf time_prototype s.t_ctx) :
    (retrace_action_runner_run env s (jail_script paths_src opts name)).t_ctx.ret_val = env.real_impl s := by
  have hactions : json_object_get_array (some (jail_script paths_src opts name)) (bytes "actions") =
      some [.object [(bytes "action_name", .string (bytes "sandbox")),
        (bytes "action_params", .object (jail_params paths_src opts))],
        .object [(bytes "action_name", .string (bytes "call_real"))]] := by
    rw [json_object_get_array, json_object_get_value, jail_script, Option.bind_some, lookup_set_value]
    rfl
  have hsandbox : sandbox_action env s (some (jail_params paths_src opts)) = (0, s) := by
    rw [sandbox_action, Option.map_some, sandbox_time ht allow_paths_jail]
  have hparams : json_object_get_object (json_value_get_object (.object
      [(bytes "action_name", .string (bytes "sandbox")),
        (bytes "action_params", .object (jail_params paths_src opts))])) (bytes "action_params") =
      some (jail_params paths_src opts) := rfl
  rw [retrace_action_runner_run, hactions]
  dsimp only
  rw [@action_loop_cons env s _ (bytes "sandbox") (sandbox_action env) rfl rfl, hparams, hsandbox]
  dsimp only
  rw [if_neg (by decide), @action_loop_cons env s _ (bytes "call_real") (ia_call_real env) rfl rfl]
  rfl

theorem run_pin_script : retrace_action_runner_run env s (pin_script pin_clock) = s := rfl

theorem cache_entry_pin :
    cache_entry (.object (pin_script pin_clock)) = some ⟨bytes "time", pin_script pin_clock⟩ := rfl

theorem unconstrained_pin : unconstrained (pin_script pin_clock) = true := rfl

end

section

variable {dladdr : UInt64 → Option DlInfo} {paths_src : Profile} {opts : Option ProfJailOpts}
  {funcs : List ProfName}

def takesTime (name : Bytes) : Prop := cstr name = bytes "time" ∨ cstr name = bytes "*"

theorem jail_script_other (h : ¬takesTime name) :
    script_name (.object (jail_script paths_src opts name)) ≠ some (bytes "time") ∧
      ¬wildcard (.object (jail_script paths_src opts name)) := by
  obtain ⟨htime, hstar⟩ := not_or.1 h
  simp only [wildcard, script_name, json_value_get_object, jail_script_name]
  split_ifs
  · exact ⟨fun h => htime (Option.some.inj h), fun h => hstar (Option.some.inj h)⟩
  · simp

theorem scan_to_pin (h : ∀ f ∈ funcs, ¬takesTime f.name) :
    script_scan dladdr ret_addr (bytes "time") none
      ((funcs.map fun f => JsonValue.object (jail_script paths_src opts f.name)) ++
        [.object (pin_script pin_clock)]) =
        some (pin_script pin_clock) := by
  induction funcs with
  | nil =>
    rw [map_nil, nil_append, script_scan_unconstrained cache_entry_pin unconstrained_pin]
    split_ifs <;> rfl
  | cons f funcs ih =>
    obtain ⟨hf, hfuncs⟩ := forall_mem_cons.1 h
    obtain ⟨hname, hwild⟩ := jail_script_other hf
    rw [map_cons, cons_append, script_scan_other hwild hname]
    exact ih hfuncs

theorem scan_to_jail (h : ∃ f ∈ funcs, takesTime f.name) (rest : List JsonValue) :
    ∃ name, script_scan dladdr 0 (bytes "time") none
      ((funcs.map fun f => JsonValue.object (jail_script paths_src opts f.name)) ++ rest) =
        some (jail_script paths_src opts name) := by
  induction funcs with
  | nil => simp at h
  | cons f funcs ih =>
    rw [map_cons, cons_append]
    by_cases hf : takesTime f.name
    · refine ⟨f.name, ?_⟩
      have hname := @jail_script_name paths_src opts f.name
      rw [script_scan]
      simp only [json_value_get_object, hname, eval_caller_matches, jail_script_plain]
      rcases hf with hf | hf <;> rw [hf] <;> rfl
    · obtain ⟨hname, hwild⟩ := jail_script_other hf
      rw [script_scan_other hwild hname]
      refine ih ?_
      simpa [hf] using h

end

section

variable {funcs_src paths_src : Profile} {opts : ProfJailOpts}

theorem intercept_scripts_jail (hset : opts.pin_clock_set = true) :
    json_object_get_array (some (prof_jail_config funcs_src paths_src (some opts))) (bytes "intercept_scripts") =
      some ((funcs_src.functions.map fun f => JsonValue.object (jail_script paths_src (some opts) f.name)) ++
        [.object (pin_script opts.pin_clock)]) := by
  simp [prof_jail_config, jail_scripts, hset, json_object_get_array, json_object_get_value, json_object_set_value]

theorem script_find_pin (hset : opts.pin_clock_set = true) (h : ∀ f ∈ funcs_src.functions, ¬takesTime f.name)
    (dladdr : UInt64 → Option DlInfo) :
    retrace_script_find dladdr ret_addr
      (retrace_config_cache_build alloc (some (prof_jail_config funcs_src paths_src (some opts))))
      ((funcs_src.functions.map fun f => JsonValue.object (jail_script paths_src (some opts) f.name)) ++
        [.object (pin_script opts.pin_clock)]) (bytes "time") = some (some (pin_script opts.pin_clock)) := by
  rw [retrace_script_find, scan_to_pin h]
  cases hbuild : retrace_config_cache_build alloc (some (prof_jail_config funcs_src paths_src (some opts))) with
  | none => rfl
  | some snap =>
    rw [cache_lookup_eq (intercept_scripts_jail hset) hbuild]
    split
    · contradiction
    · next cached hcached =>
      -- The only entry for `time` is the one of the pinning script.
      obtain ⟨e, he, rfl⟩ := Option.map_eq_some_iff.1 (Option.some.inj hcached)
      have hname : e.func_name = bytes "time" := by simpa using find?_some he
      obtain ⟨v, hv, hentry⟩ := mem_filterMap.1 (mem_of_mem_take (mem_of_find?_eq_some he))
      obtain ⟨hobj, hscript, -, -⟩ := cache_entry_some hentry
      rw [mem_append, mem_map, mem_singleton] at hv
      rcases hv with ⟨f, hf, rfl⟩ | rfl
      · rw [hname] at hscript
        exact absurd hscript (jail_script_other (h f hf)).1
      · rw [← Option.some.inj hobj, if_pos unconstrained_pin]
    · rfl

/-- The clock is pinned exactly when it is pinned to 0, which is what a call without a result returns, and the
profile has no function `time` or `*`. -/
theorem clock_pinned_iff (funcs_src paths_src : Profile) (opts : ProfJailOpts) (hset : opts.pin_clock_set = true) :
    ClockPinned funcs_src paths_src opts ↔
      opts.pin_clock = 0 ∧ ∀ f ∈ funcs_src.functions, cstr f.name ≠ bytes "time" ∧ cstr f.name ≠ bytes "*" := by
  have hpinned : (∀ f ∈ funcs_src.functions, ¬takesTime f.name) → ∀ env alloc dladdr ret_addr s,
      CallOf time_prototype s.t_ctx → retrace_engine_wrapper env alloc dladdr ret_addr
        (prof_jail_config funcs_src paths_src (some opts)) s = some s.t_ctx.ret_val := by
    intro h env alloc dladdr ret_addr s ht
    rw [retrace_engine_wrapper, intercept_scripts_jail hset, ht.1]
    simp only [show time_prototype.name = bytes "time" from rfl, script_find_pin hset h, Option.map_some,
      run_pin_script]
  constructor
  · intro h
    let s : CallState := ⟨⟨time_prototype, [⟨⟨bytes "tloc", true, bytes "long"⟩, 0, false⟩], 0, 0⟩, fun _ => []⟩
    have hs : CallOf time_prototype s.t_ctx := ⟨rfl, rfl⟩
    have hnone : ∀ f ∈ funcs_src.functions, ¬takesTime f.name := by
      by_contra hex
      push Not at hex
      -- Without a cache the scripts are gone through, and the real clock is one ahead.
      obtain ⟨name, hname⟩ := @scan_to_jail (fun _ => none) paths_src (some opts) _ hex
        [.object (pin_script opts.pin_clock)]
      have hcall := h ⟨fun _ => opts.pin_clock.toInt + 1, none, fun _ => none⟩ ⟨false, false⟩ (fun _ => none) 0 s
        hs rfl
      have hbuild : retrace_config_cache_build ⟨false, false⟩
          (some (prof_jail_config funcs_src paths_src (some opts))) = none := by
        simp [retrace_config_cache_build, intercept_scripts_jail hset]
      rw [retrace_engine_wrapper, intercept_scripts_jail hset] at hcall
      simp only [hbuild, retrace_script_find, retrace_config_cache_lookup,
        show s.t_ctx.prototype.name = bytes "time"
        from rfl, hname, Option.map_some, run_jail_script hs] at hcall
      have := Option.some.inj hcall
      omega
    refine ⟨?_, fun f hf => not_or.1 (hnone f hf)⟩
    have hcall := h ⟨fun _ => 0, none, fun _ => none⟩ ⟨false, false⟩ (fun _ => none) 0 s hs rfl
    rw [hpinned hnone _ _ _ _ s hs] at hcall
    exact Int64.toInt_inj.1 (Option.some.inj hcall).symm
  · rintro ⟨hzero, hnames⟩ env alloc dladdr ret_addr s ht hret
    rw [hpinned (fun f hf => not_or.2 (hnames f hf)) env alloc dladdr ret_addr s ht, hret, hzero]
    rfl

end

/-- A program that calls `open` and never asks for the time. -/
def openProfile : Profile := { functions := [⟨bytes "open", 1⟩] }

theorem clock_pinned_zero : ClockPinned openProfile openProfile { pin_clock_set := true } := by
  refine (clock_pinned_iff openProfile openProfile { pin_clock_set := true } rfl).mpr ⟨rfl, fun f hf => ?_⟩
  rw [mem_singleton.1 hf]
  decide

/-- A clock pinned to 1700000000: the call returns 0. -/
theorem pinned_clock_returns_zero :
    ¬ClockPinned openProfile openProfile { pin_clock := 1700000000, pin_clock_set := true } := by
  intro h
  have hcall := h ⟨fun _ => 0, none, fun _ => none⟩ ⟨false, false⟩ (fun _ => none) 0
    ⟨⟨time_prototype, [⟨⟨bytes "tloc", true, bytes "long"⟩, 0, false⟩], 0, 0⟩, fun _ => []⟩ ⟨rfl, rfl⟩ rfl
  exact absurd hcall (by decide)

end Retrace.Profiler
