import Retrace.Daemon.Agreement
import Retrace.Daemon.Proofs.ThawProofs

/-!
# Daemon and agents agree on the policy

Every verb that installs a policy installs one with an epoch above the last and sends it. An agent that
agrees with the daemon before therefore takes it, and agrees again.
-/

namespace Retrace.Retraced

open CLib Parson Rpc Runs Supervisor List

variable {blob : Bytes} {ds : List Delivery} {ns : List Nat} {vs : List PolicyVerb}
  {c : Ctl} {root : JsonObject} {io n : Nat} {v : PolicyVerb}

variable {C : Crypto}

theorem policyEpoch_eq : policyEpoch root = doubleToU64 (docEpoch root) := rfl

theorem Complete.policyRoot (h : Complete blob)
    (hdoc : policy_document blob = some (some root)) : policyRoot blob = some root := by
  obtain ⟨hboth, hfits⟩ := h
  unfold policy_document at hdoc
  cases hparse : json_parse_string blob with
  | none => simp [hparse] at hdoc
  | some v =>
    simp only [policyText, hparse, Option.bind_some] at hboth hfits
    simp only [hparse, Option.bind_eq_bind, Option.bind_some] at hdoc
    cases hblob : json_object_get_string (json_value_get_object v) (bytes "blob") with
    | none =>
      have hsig : json_object_get_object (json_value_get_object v) (bytes "sig") = none := by
        simpa [hblob] using hboth
      simp only [hblob, Option.getD_none, Option.some.injEq] at hfits hdoc
      simp only [Supervisor.policyRoot, hparse, Option.bind_eq_bind, Option.bind_some, hsig, hblob,
        snprintf_eq_self hfits]
      exact hdoc
    | some text =>
      obtain ⟨sig, hsig⟩ := Option.isSome_iff_exists.mp (hboth.mpr (by simp [hblob]))
      simp only [hblob, Option.getD_some, Option.bind_eq_some_iff, Option.some.injEq] at hfits hdoc
      obtain ⟨bv, hbv, hroot⟩ := hdoc
      simp only [Supervisor.policyRoot, hparse, Option.bind_eq_bind, Option.bind_some, hsig, hblob,
        snprintf_eq_self hfits, hbv]
      exact hroot

theorem complete_of_bare (hparse : json_parse_string text = some (.object root))
    (hsig : json_object_get_object (some root) (bytes "sig") = none)
    (hblob : json_object_get_string (some root) (bytes "blob") = none) (hlen : text.length < 8192) :
    Complete text := by
  have hobj : (json_parse_string text).bind json_value_get_object = some root := by
    rw [hparse]
    rfl
  refine ⟨?_, ?_⟩
  · rw [hobj, hsig, hblob]
    simp
  · rw [policyText, hobj, hblob]
    exact hlen

theorem Taken.sig_check (h : Taken a d) (hroot : policyRoot (cstr d.payload) = some root) :
    ∃ doc, retrace_policy_sig_check C d.world.toWorld (retrace_policy_sig_init C d.world.toWorld a.sig)
      (cstr d.payload) 8192 = .ok doc := by
  have hsignature := h.signature
  unfold Supervisor.policyRoot at hroot
  unfold retrace_policy_sig_check
  cases hparse : json_parse_string (cstr d.payload) with
  | none => simp [hparse] at hroot
  | some v =>
    simp only [hparse, Option.bind_some] at hsignature
    simp only [hparse, Option.bind_eq_bind, Option.bind_some] at hroot
    cases hsig : json_object_get_object (json_value_get_object v) (bytes "sig") with
    | none =>
      cases hblob : json_object_get_string (json_value_get_object v) (bytes "blob") with
      | none =>
        simp only [hsig, hblob]
        exact ⟨_, rfl⟩
      | some blob => simp [hsig, hblob] at hroot
    | some sig =>
      cases hblob : json_object_get_string (json_value_get_object v) (bytes "blob") with
      | none => simp [hsig, hblob] at hroot
      | some blob =>
        obtain ⟨hssl, halg, hpresent, hvalid⟩ := hsignature sig blob hsig hblob
        simp only [hsig, hblob, hssl, halg, if_true, ne_eq, not_true_eq_false, hpresent, or_self, if_false]
        rcases hvalid with hpin | hkey
        · rw [hpin]
          exact ⟨_, rfl⟩
        · simp only [hkey, if_true, ite_self]
          exact ⟨_, rfl⟩

theorem Taken.installed (h : Taken a d) (hroot : policyRoot (cstr d.payload) = some root)
    (hepoch : 1 ≤ docEpoch root)
    (hscripts : (json_object_get_array (some root) (bytes "intercept_scripts")).isSome)
    (hnew : a.policy_epoch < policyEpoch root) :
    (deliver a d).retrace_conf = some root ∧ (deliver a d).policy_epoch = policyEpoch root := by
  obtain ⟨doc, hcheck⟩ := h.sig_check hroot
  obtain ⟨pol, hpol, -⟩ := exists_header_of_epoch hepoch
  obtain ⟨scripts, hscripts⟩ := Option.isSome_iff_exists.mp hscripts
  have hexpires := h.unexpired root pol hroot hpol
  have hnumber : json_object_get_number (some pol) (bytes "epoch") = docEpoch root := by rw [docEpoch, hpol]
  rw [sig_check_ok hcheck] at hroot
  obtain ⟨v, hv, hobj⟩ := Option.bind_eq_some_iff.mp hroot
  have hvalid : validate_document d.world.toWorld doc a.policy_epoch = .ok root (policyEpoch root) := by
    simp only [validate_document, hv, hobj, hpol, hnumber, hscripts, if_neg (not_lt.mpr hepoch), if_neg hexpires,
      ← policyEpoch_eq, if_neg (UInt64.ne_of_lt hnew).symm, if_neg (UInt64.not_lt.mpr (UInt64.le_of_lt hnew)),
      Option.isNone_some, Bool.false_eq_true, if_false]
  have hbuild : ∃ snap, Core.retrace_config_cache_build d.world.alloc (some root) = some snap := by
    simp only [Core.retrace_config_cache_build, hscripts, h.snapshot, if_true]
    exact ⟨_, rfl⟩
  obtain ⟨snap, hbuild⟩ := hbuild
  simp only [deliver, applied, retrace_agent_policy_apply, retrace_policy_validate, hcheck, hvalid,
    hbuild, and_self]

theorem policyFrames_append :
    policyFrames io (es ++ es') = policyFrames io es ++ policyFrames io es' := filterMap_append

theorem policyFrames_ctl_reply : policyFrames io (ctl_reply text) = [] := by
  unfold ctl_reply
  split_ifs <;> rfl

theorem policyFrames_push (hrole : FullRole c.conns io) :
    policyFrames io (retraced_ctl_push_policy c blob) = [blob] := by
  obtain ⟨conn, hconn, hhello, hspec⟩ := hrole
  have hio : conn.io = some io := by
    have hmem : conn ∈ c.conns.filter (fun n => n.io = some io) := by simp [hconn]
    simpa using (mem_filter.mp hmem).2
  have hfilter : policyFrames io (retraced_ctl_push_policy c blob) =
      policyFrames io (retraced_ctl_push_policy
        { c with conns := c.conns.filter (fun n => n.io = some io) } blob) := by
    simp only [policyFrames, retraced_ctl_push_policy, filterMap_filterMap, filterMap_filter]
    refine filterMap_congr fun n _ => ?_
    cases hn : n.io with
    | none => simp
    | some k =>
      by_cases hk : k = io
      · simp [hk]
      · by_cases hfull : n.helloed = true ∧ ¬n.spectator = true <;> simp [hk, hfull]
  rw [hfilter, hconn]
  simp [policyFrames, retraced_ctl_push_policy, hio, hhello, hspec]

theorem policyFrames_installed (hrole : FullRole c.conns io) (blob : Bytes) (epoch : Int64)
    (name : Bytes) (cap : Nat) : policyFrames io (policy_installed c blob epoch name cap) = [blob] := by
  simp only [policy_installed, policyFrames_append, policyFrames_push hrole, policyFrames_ctl_reply]
  rfl

structure Ordered (c : Ctl) : Prop where
  nonneg : 0 ≤ c.policy_epoch.toInt
  below : c.policy_epoch.toInt < 2 ^ 53
  held : ∀ r, c.Holds r → ⌊docEpoch r⌋ = c.policy_epoch.toInt
  saved : ∀ text, c.thaw_blob = some text → Complete text ∧
    ∃ root, policy_document text = some (some root) ∧ 1 ≤ docEpoch root ∧
      (json_object_get_array (some root) (bytes "intercept_scripts")).isSome

structure Installs (c : Ctl) (v : PolicyVerb) (blob : Bytes) (root : JsonObject) : Prop where
  holds : (policyStep c v).policy_blob = some blob
  document : policy_document blob = some (some root)
  complete : Complete blob
  text : 0 ∉ blob
  epoch : 1 ≤ docEpoch root
  below : docEpoch root < 2 ^ 53
  stamped : (policyStep c v).policy_epoch.toInt = ⌊docEpoch root⌋
  newer : c.policy_epoch.toInt < (policyStep c v).policy_epoch.toInt
  scripts : (json_object_get_array (some root) (bytes "intercept_scripts")).isSome
  saved : (policyStep c v).thaw_blob = c.thaw_blob ∨ (policyStep c v).thaw_blob = some blob
  sent : ∀ io, FullRole c.conns io → policyFrames io (policy_verb c v).2 = [blob]

theorem policyStep_conns (c : Ctl) (v : PolicyVerb) : (policyStep c v).conns = c.conns := by
  cases v with
  | push line =>
    rcases push_cases c line with ⟨text, hverb, -⟩ | ⟨blob, root, -, -, -, -, hverb⟩
    · rw [policyStep, hverb]
    · rw [policyStep, hverb]
      rfl
  | freeze => rfl
  | thaw => rfl

theorem Ordered.push (hok : OrderedStep c (.push line)) :
    (policyStep c (.push line) = c ∧ ∀ io, policyFrames io (policy_verb c (.push line)).2 = []) ∨
      ∃ blob root, Installs c (.push line) blob root := by
  rcases push_cases c line with ⟨text, hverb, -⟩ | ⟨blob, root, hget, hdoc, hepoch, hscripts, hverb⟩
  · refine .inl ⟨by rw [policyStep, hverb], fun io => ?_⟩
    rw [hverb]
    exact policyFrames_ctl_reply
  · obtain ⟨hcomplete, hnew, hlt⟩ := hok blob root hget hdoc hepoch
    have hlong := doubleToLong_toInt hepoch hlt
    refine .inr ⟨blob, root, ?_⟩
    exact {
      holds := by rw [policyStep, hverb]; rfl
      document := hdoc
      complete := hcomplete
      text := not_mem_zero_request hget
      epoch := hepoch
      below := hlt
      stamped := by rw [policyStep, hverb]; exact hlong
      newer := by rw [policyStep, hverb]; exact Int64.lt_iff_toInt_lt.mp hnew
      scripts := hscripts
      saved := by rw [policyStep, hverb]; exact .inr rfl
      sent := fun io hrole => by
        rw [hverb]
        exact @policyFrames_installed (pushed c blob (doubleToLong (docEpoch root))) io hrole blob _ _ _ }

theorem Ordered.freeze (h : Ordered c) (hok : OrderedStep c .freeze) :
    ∃ blob root, Installs c .freeze blob root := by
  obtain ⟨hsucc, h1, hlt⟩ := toInt_succ h.nonneg hok
  have h0 : 0 ≤ (c.policy_epoch + 1).toInt := by omega
  have hparse := freeze_parses h0 hlt
  refine ⟨snprintf 256 (freeze_text (c.policy_epoch + 1)), freezeRoot (c.policy_epoch + 1).toInt, ?_⟩
  exact {
    holds := rfl
    document := freeze_document h0 hlt
    complete := complete_of_bare hparse rfl rfl (snprintf_length_lt (by omega) (by omega) _)
    text := by
      rw [freeze_text_eq h0 hlt]
      exact not_mem_zero_snprintf (not_mem_zero_serialize _) 256
    epoch := by
      show (1 : ℚ) ≤ (c.policy_epoch + 1).toInt
      exact_mod_cast h1
    below := by
      show ((c.policy_epoch + 1).toInt : ℚ) < 2 ^ 53
      exact_mod_cast hlt
    stamped := (Int.floor_intCast _).symm
    newer := by
      show c.policy_epoch.toInt < (c.policy_epoch + 1).toInt
      omega
    scripts := rfl
    saved := .inl rfl
    sent := fun io hrole => @policyFrames_installed (policyStep c .freeze) io hrole _ _ _ _ }

theorem Ordered.source (h : Ordered c) (hok : OrderedStep c .thaw) :
    ∃ root, Source c.source root ∧ json_object_get_object (some root) (bytes "sig") = none ∧
      (json_object_get_array (some root) (bytes "intercept_scripts")).isSome := by
  unfold Ctl.source
  cases hb : c.thaw_blob with
  | none => exact ⟨_, source_thaw_default, rfl, rfl⟩
  | some text =>
    obtain ⟨hcomplete, root, hdoc, hepoch, hscripts⟩ := h.saved text hb
    have hsrc := (hok.2 text hb).source hdoc hepoch
    have hboth := hcomplete.both
    rw [hsrc.parses, Option.bind_some, json_value_get_object, hsrc.bare] at hboth
    exact ⟨root, hsrc, by simpa using hboth, hscripts⟩

theorem Ordered.thaw (h : Ordered c) (hok : OrderedStep c .thaw) : ∃ blob root, Installs c .thaw blob root := by
  obtain ⟨hsucc, h1, hlt⟩ := toInt_succ h.nonneg hok.1
  have h0 : 0 ≤ (c.policy_epoch + 1).toInt := by omega
  obtain ⟨root, hsrc, hsig, hscripts⟩ := h.source hok
  obtain ⟨pol, hpol, -⟩ := exists_header_of_epoch hsrc.epoch
  have htext := thaw_text_source c (c.policy_epoch + 1)
  have hsigned : json_object_get_object (some (setEpoch root (c.policy_epoch + 1).toInt))
      (bytes "sig") = none := by
    unfold json_object_get_object json_object_get_value at hsig ⊢
    rw [Option.bind_some] at hsig ⊢
    rw [lookup_setEpoch hpol (by decide)]
    exact hsig
  refine ⟨snprintf 8192 (thaw_text c.thaw_blob (c.policy_epoch + 1)), setEpoch root (c.policy_epoch + 1).toInt, ?_⟩
  rw [htext]
  exact {
    holds := by rw [← htext]; rfl
    document := hsrc.thaw_document h0 hlt
    complete := complete_of_bare (hsrc.thaw h0 hlt) hsigned (hsrc.get_string_setEpoch _)
      (snprintf_length_lt (by omega) (by omega) _)
    text := by
      simp only [thaw_text, Option.getD_some, hsrc.parses]
      exact not_mem_zero_snprintf (not_mem_zero_serialize _) 8192
    epoch := by
      rw [docEpoch_setEpoch hpol]
      exact_mod_cast h1
    below := by
      rw [docEpoch_setEpoch hpol]
      exact_mod_cast hlt
    stamped := by
      rw [docEpoch_setEpoch hpol]
      exact (Int.floor_intCast _).symm
    newer := by
      show c.policy_epoch.toInt < (c.policy_epoch + 1).toInt
      omega
    scripts := by
      unfold json_object_get_array json_object_get_value at hscripts ⊢
      rw [Option.bind_some] at hscripts ⊢
      rw [lookup_setEpoch hpol (by decide)]
      exact hscripts
    saved := .inl rfl
    sent := fun io hrole => by
      rw [← htext]
      exact @policyFrames_installed (policyStep c .thaw) io hrole _ _ _ _ }

theorem Ordered.cases (h : Ordered c) (hok : OrderedStep c v) :
    (policyStep c v = c ∧ ∀ io, policyFrames io (policy_verb c v).2 = []) ∨
      ∃ blob root, Installs c v blob root := by
  cases v with
  | push line => exact Ordered.push hok
  | freeze => exact .inr (h.freeze hok)
  | thaw => exact .inr (h.thaw hok)

theorem Installs.ordered (hi : Installs c v blob root) (h : Ordered c) : Ordered (policyStep c v) := by
  have hlow : 1 ≤ ⌊docEpoch root⌋ := Int.le_floor.mpr (by exact_mod_cast hi.epoch)
  have hhigh : ⌊docEpoch root⌋ < 2 ^ 53 := Int.floor_lt.mpr (by exact_mod_cast hi.below)
  have hstamped := hi.stamped
  refine ⟨by omega, by omega, ?_, ?_⟩
  · rintro r ⟨b, hb, hr⟩
    rw [hi.holds] at hb
    cases hb
    rw [hi.document] at hr
    cases hr
    exact hstamped.symm
  · intro text htext
    rcases hi.saved with hsame | hnew
    · exact h.saved text (hsame ▸ htext)
    · rw [hnew] at htext
      cases htext
      exact ⟨hi.complete, root, hi.document, hi.epoch, hi.scripts⟩

/-- An ordered verb keeps the daemon at the epoch of the document that it holds. -/
theorem Ordered.step (h : Ordered c) (hok : OrderedStep c v) : Ordered (policyStep c v) := by
  rcases h.cases hok with ⟨hsame, -⟩ | ⟨blob, root, hi⟩
  · rw [hsame]
    exact h
  · exact hi.ordered h

theorem PolicyBooted.ordered (hboot : PolicyBooted c)
    (hlow : ∀ root, c.Holds root → docEpoch root < 2 ^ 53) : Ordered c := by
  have hgood := hboot.good hlow
  refine ⟨hgood.nonneg, hgood.below, ?_, ?_⟩
  · rintro r ⟨b, hb, hr⟩
    have hlt := hlow r ⟨b, hb, hr⟩
    cases hboot with
    | bare => cases hb
    | loaded hload =>
      obtain ⟨epoch, -, hpolicy, rfl⟩ := load_policy_some hload
      obtain ⟨-, root, hdoc, hepoch, -, rfl⟩ := retraced_policy_load_eq_some.mp hpolicy
      cases hb
      rw [hdoc] at hr
      cases hr
      exact (doubleToLong_toInt hepoch hlt).symm
  · intro text htext
    cases hboot with
    | bare => cases htext
    | loaded hload =>
      obtain ⟨epoch, -, -, rfl⟩ := load_policy_some hload
      cases htext

theorem OrderedRun.ordered (h : OrderedRun c) : Ordered c := by
  induction h with
  | boot hboot hlow => exact hboot.ordered hlow
  | conns _ conns ih => exact ⟨ih.nonneg, ih.below, ih.held, ih.saved⟩
  | verb _ hok ih => exact ih.step hok

/-- After any ordered verbs the state is the same or has a document with a higher epoch. -/
theorem Ordered.after (h : Ordered c) (hok : Along policyStep OrderedStep c vs) : run policyStep c vs = c ∨
      c.policy_epoch.toInt < (run policyStep c vs).policy_epoch.toInt ∧
        ∃ blob root, (run policyStep c vs).policy_blob = some blob ∧ policyRoot blob = some root ∧
          ⌊docEpoch root⌋ = (run policyStep c vs).policy_epoch.toInt := by
  induction vs generalizing c with
  | nil => exact .inl rfl
  | cons v vs ih =>
    rw [run_cons]
    have ih := ih (h.step hok.1) hok.2
    rcases h.cases hok.1 with ⟨hsame, -⟩ | ⟨blob, root, hi⟩
    · rwa [hsame] at ih ⊢
    · refine .inr ?_
      rcases ih with hsame | ⟨hlt, hinst⟩
      · rw [hsame]
        exact ⟨hi.newer, blob, root, hi.holds, hi.complete.policyRoot hi.document, hi.stamped.symm⟩
      · exact ⟨hi.newer.trans hlt, hinst⟩

/-- An agent that agrees before a verb agrees again after the frames of this verb. -/
theorem Agree.step (hagree : Agree c a) (h : Ordered c) (hok : OrderedStep c v) (hrole : FullRole c.conns io)
    (hds : ds.map (·.payload) = policyFrames io (policy_verb c v).2) (htaken : Along deliver Taken a ds) :
    Agree (policyStep c v) (run deliver a ds) := by
  rcases h.cases hok with ⟨hsame, hnone⟩ | ⟨blob, root, hi⟩
  · rw [hnone io, map_eq_nil_iff] at hds
    rw [hds, run_nil, hsame]
    exact hagree
  · rw [hi.sent io hrole, map_eq_singleton_iff] at hds
    obtain ⟨d, rfl, rfl⟩ := hds
    have hcstr : cstr d.payload = d.payload := cstr_eq_self hi.text
    have hroot := hi.complete.policyRoot hi.document
    have hstamp := toNat_doubleToU64 (le_trans zero_le_one hi.epoch) (hi.below.trans (by norm_num))
    have hnew : a.policy_epoch < policyEpoch root := by
      rw [UInt64.lt_iff_toNat_lt, policyEpoch_eq]
      have := hi.newer
      rw [hi.stamped, ← hstamp, ← hagree.epoch] at this
      exact_mod_cast this
    obtain ⟨hconf, hepoch⟩ := htaken.1.installed (by rw [hcstr]; exact hroot) hi.epoch hi.scripts hnew
    rw [run_cons, run_nil]
    refine ⟨?_, ?_⟩
    · rw [hepoch, policyEpoch_eq, hstamp, hi.stamped]
    · intro b hb
      rw [hi.holds] at hb
      cases hb
      exact ⟨root, hroot, hconf⟩

/-- The same for a whole sequence of verbs and the frames that they send, in order. -/
theorem Agree.after (hagree : Agree c a) (h : Ordered c)
    (hok : Along policyStep OrderedStep c vs) (hrole : FullRole c.conns io)
    (hds : ds.map (·.payload) = policySent io c vs) (htaken : Along deliver Taken a ds) :
    Agree (run policyStep c vs) (run deliver a ds) := by
  induction vs generalizing c a ds with
  | nil =>
    rw [policySent, map_eq_nil_iff] at hds
    rw [hds]
    exact hagree
  | cons v vs ih =>
    rw [policySent, map_eq_append_iff] at hds
    obtain ⟨ds₁, ds₂, rfl, hds₁, hds₂⟩ := hds
    obtain ⟨htaken₁, htaken₂⟩ := (along_append _ _ _).mp htaken
    rw [run_cons, run_append]
    refine ih (hagree.step h hok.1 hrole hds₁ htaken₁) (h.step hok.1) hok.2 ?_ hds₂ htaken₂
    rw [policyStep_conns]
    exact hrole

/-- **Agreement.** In every run whose pushes carry complete policies with growing epochs and whose
thaws restore bare ones, an agent that takes the frames it is sent agrees with the daemon; and once the
daemon is no longer frozen, the agent runs none of the documents that froze it. -/
theorem policy_agreement {c : Ctl} (hc : OrderedRun c) {a : Agent C} (hagree : Agree c a) {vs : List PolicyVerb}
    (hok : Along policyStep OrderedStep c vs) {io : Nat} (hrole : FullRole c.conns io) {ds : List Delivery}
    (hds : ds.map (·.payload) = policySent io c vs) (htaken : Along deliver Taken a ds) :
    Agree (run policyStep c vs) (run deliver a ds) ∧
      ((run policyStep c vs).frozen = false → ∀ pre r, pre <+: vs → (run policyStep c pre).frozen = true →
        (run policyStep c pre).Holds r → (run deliver a ds).retrace_conf ≠ some r) := by
  have h := hc.ordered
  have hafter := hagree.after h hok hrole hds htaken
  refine ⟨hafter, ?_⟩
  rintro hthawed pre r ⟨post, rfl⟩ hfrozen hholds hconf
  obtain ⟨hpre, hpost⟩ := (along_append _ _ _).mp hok
  have hordered : Ordered (run policyStep c pre) := run_invariant Ordered (fun _ _ hs hv => hs.step hv) h hpre
  rw [run_append] at hthawed hafter
  rcases hordered.after hpost with hsame | ⟨hlt, blob, root, hblob, hroot, hepoch⟩
  · rw [hsame, hfrozen] at hthawed
    cases hthawed
  · obtain ⟨root', hroot', hconf'⟩ := hafter.config blob hblob
    rw [hroot] at hroot'
    cases hroot'
    rw [hconf] at hconf'
    cases hconf'
    have := hordered.held r hholds
    omega

def emptyText (n : Nat) : Bytes := json_serialize_to_string (.object (emptyRoot n))

theorem not_mem_zero_emptyText : 0 ∉ emptyText n := not_mem_zero_serialize _

theorem json_parse_emptyText (hn : n ≤ 2 ^ 53) : json_parse_string (emptyText n) = some (.object (emptyRoot n)) :=
  json_parse_serialize (.pair (by decide) (by decide) (by decide)
    (.member (by decide) (.number (isNormal_natCast hn))) (.array (by simp)))

theorem policy_document_emptyText (hn : n ≤ 2 ^ 53) :
    policy_document (emptyText n) = some (some (emptyRoot n)) := by
  rw [policy_document, json_parse_emptyText hn]
  rfl

theorem get_blob_emptyText :
    json_object_get_string (request (pushLine (emptyText n))) (bytes "blob") = some (emptyText n) := by
  rw [request_pushLine not_mem_zero_emptyText]
  rfl

theorem policy_verb_emptyText (c : Ctl) (h1 : 1 ≤ n) (hn : n ≤ 2 ^ 53) :
    policy_verb c (.push (pushLine (emptyText n))) = (pushed c (emptyText n) (doubleToLong n),
        policy_installed (pushed c (emptyText n) (doubleToLong n)) (emptyText n) (doubleToLong n)
          (bytes "retrace.policy.pushed") 160) := by
  have hload : retraced_policy_load (emptyText n) = some (emptyText n, doubleToLong n) := by
    refine retraced_policy_load_eq_some.mpr ⟨rfl, _, policy_document_emptyText hn, ?_, rfl, rfl⟩
    show (1 : ℚ) ≤ n
    exact_mod_cast h1
  simp only [policy_verb, verb_policy_push, get_blob_emptyText, hload]
  rfl

def oneAgent : Ctl :=
  { conns := [{ fd := some 0, io := some 0, agent_id := bytes "a", helloed := true }], scopes := 0 }

def newAgent : Agent noCrypto where
  agent_id := bytes "a"
  id_fits := by decide
  policy_epoch := 0
  retrace_conf := none
  g_snap := none
  sig := {}
  session := none
  sent := []

def unpinned : AgentWorld where
  now := 0
  pubkey := none
  openssl := false
  fs := fun _ => none
  alloc := ⟨true, true⟩
  setenv_ok := true
  send_ret := 1

theorem fullRole_oneAgent : FullRole oneAgent.conns 0 := ⟨_, rfl, rfl, rfl⟩

theorem agree_new : Agree oneAgent newAgent := ⟨by decide, by rintro blob ⟨⟩⟩

def pushes (ns : List Nat) : List PolicyVerb := ns.map fun n => .push (pushLine (emptyText n))

def deliveries (ns : List Nat) : List Delivery := ns.map fun n => ⟨unpinned, emptyText n⟩

theorem complete_emptyText (hn : n < 2 ^ 53) : Complete (emptyText n) :=
  complete_of_bare (json_parse_emptyText (by omega)) rfl rfl (length_serialize_emptyRoot hn)

theorem taken_emptyText (hn : n < 2 ^ 53) : Taken a ⟨unpinned, emptyText n⟩ := by
  have hcstr : cstr (emptyText n) = emptyText n := cstr_eq_self not_mem_zero_emptyText
  have hobj : (json_parse_string (cstr (emptyText n))).bind json_value_get_object = some (emptyRoot n) := by
    rw [hcstr, json_parse_emptyText (by omega)]
    rfl
  refine ⟨?_, ?_, rfl⟩
  · intro sig blob hsig
    rw [hobj] at hsig
    cases hsig
  · intro root pol hroot hpol
    rw [hcstr, (complete_emptyText hn).policyRoot (policy_document_emptyText (by omega))] at hroot
    cases hroot
    cases hpol
    exact fun h => lt_irrefl _ h.1

theorem along_taken (hns : ∀ n ∈ ns, n < 2 ^ 53) (a : Agent noCrypto) : Along deliver Taken a (deliveries ns) := by
  induction ns generalizing a with
  | nil => trivial
  | cons n ns ih => exact ⟨taken_emptyText (hns n (by simp)), ih (fun m hm => hns m (by simp [hm])) _⟩

theorem policySent_pushes (hns : ∀ n ∈ ns, 1 ≤ n ∧ n < 2 ^ 53)
    (hrole : FullRole c.conns io) : (deliveries ns).map (·.payload) = policySent io c (pushes ns) := by
  induction ns generalizing c with
  | nil => rfl
  | cons n ns ih =>
    obtain ⟨h1, hlt⟩ := hns n (by simp)
    have hverb := policy_verb_emptyText c h1 (by omega)
    have hframes : policyFrames io (policy_verb c (.push (pushLine (emptyText n)))).2 = [emptyText n] := by
      rw [hverb]
      exact @policyFrames_installed (pushed c (emptyText n) (doubleToLong n)) io hrole _ _ _ _
    have ih := @ih (policyStep c (.push (pushLine (emptyText n)))) (fun m hm => hns m (by simp [hm]))
      (by rw [policyStep_conns]; exact hrole)
    rw [pushes, map_cons, policySent, hframes]
    exact congrArg (emptyText n :: ·) ih

theorem orderedStep_emptyText (hlt : n < 2 ^ 53) (hnew : c.policy_epoch < doubleToLong n) :
    OrderedStep c (.push (pushLine (emptyText n))) := by
  intro blob root hget hdoc hepoch
  rw [get_blob_emptyText] at hget
  cases hget
  rw [policy_document_emptyText (by omega)] at hdoc
  cases hdoc
  refine ⟨complete_emptyText hlt, hnew, ?_⟩
  show (n : ℚ) < 2 ^ 53
  exact_mod_cast hlt

/-- Two pushes whose epochs grow. -/
theorem agree_growing : Agree (run policyStep oneAgent (pushes [3, 5]))
    (run deliver newAgent (deliveries [3, 5])) := by
  refine (policy_agreement (.boot (.bare _ _) ?_) agree_new ?_ fullRole_oneAgent
    (policySent_pushes (by simp) fullRole_oneAgent) (along_taken (by simp) _)).1
  · rintro root ⟨b, hb, -⟩
    cases hb
  · refine ⟨orderedStep_emptyText (by norm_num) (by decide), orderedStep_emptyText (by norm_num) ?_, trivial⟩
    rw [policyStep, policy_verb_emptyText _ (by norm_num) (by norm_num)]
    show doubleToLong 3 < doubleToLong 5
    decide

/-- Two pushes whose epochs do not: both are carried out, and the agent keeps the first. -/
theorem not_agree_falling :
    RepliesOk (policy_verb oneAgent (.push (pushLine (emptyText 5)))).2 ∧
      RepliesOk (policy_verb (run policyStep oneAgent (pushes [5])) (.push (pushLine (emptyText 3)))).2 ∧
      (deliveries [5, 3]).map (·.payload) = policySent 0 oneAgent (pushes [5, 3]) ∧
      Along deliver Taken newAgent (deliveries [5, 3]) ∧
      ¬Agree (run policyStep oneAgent (pushes [5, 3])) (run deliver newAgent (deliveries [5, 3])) := by
  have hok : ∀ c, ∀ n ∈ [5, 3], RepliesOk (policy_verb c (.push (pushLine (emptyText n)))).2 := by
    intro c n hn
    rw [policy_verb_emptyText c (by simp at hn; omega) (by simp at hn; omega)]
    exact repliesOk_policy_installed _ _ _ _ _
  refine ⟨hok _ 5 (by simp), hok _ 3 (by simp), policySent_pushes (by simp) fullRole_oneAgent,
    along_taken (by simp) _, ?_⟩
  rintro ⟨hepoch, -⟩
  revert hepoch
  decide +kernel

end Retrace.Retraced
