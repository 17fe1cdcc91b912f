import Retrace.Enforce.Audit
import Retrace.Strings.Needle
import Retrace.Journal.Proofs.SealProofs

/-!
# The trail verifies its own history

The replay takes the first place with the text of a hash marker for the end of the payload. Inside a payload
this text cannot stand: a quote in an argument is escaped, and behind a quote that ends a string there is a
comma or a bracket, even when the list of arguments was cut off. So every line gives its payload, its hash
and its signature back, and the replay goes through all of them.
-/

namespace Retrace.Enforce

open CLib Retraced Runs Needle List Option

variable {av s : Bytes} {args lines : List Bytes} {t : Trail}

theorem strstr_put (ha : a ∉ v) (hneedle : a :: v <+: needle)
    (h : run (feed (a :: v)) k (s ++ (a :: v).dropLast) < (a :: v).length) (rest : Bytes) :
    strstr (s ++ (needle ++ rest)) needle = some (needle ++ rest) := by
  induction s generalizing k with
  | nil => exact strstr_self needle rest
  | cons c s ih =>
    rw [cons_append, strstr_cons_of_not, ih h]
    intro hfound
    have hword : a :: v <+: c :: (s ++ (needle ++ rest)) := hneedle.trans hfound
    have hfront : (c :: s) ++ (a :: v).dropLast <+: c :: (s ++ (needle ++ rest)) := by
      rw [cons_append, cons_prefix_cons]
      refine ⟨rfl, (prefix_append_right_inj s).mpr ?_⟩
      exact (( dropLast_prefix _).trans hneedle).trans (prefix_append _ _)
    have hlen : (a :: v).length ≤ ((c :: s) ++ (a :: v).dropLast).length := by
      simp only [length_append, length_cons, length_dropLast]
      omega
    exact not_infix ha h (prefix_of_prefix_length_le hword hfront hlen).isInfix

def payloadParts : List Bytes :=
  [bytes "\x7b\"ts\":", bytes ",\"pid\":", bytes ",\"digest\":\"", bytes "\",\"alg\":\"",
    bytes "\",\"backends\":\""]

/-- A word that ends with a quote and one more character, and how the parts of a payload move its count: a
string that is not closed yet keeps it at most at the quote. -/
structure Barred (pat : Bytes) (q : Nat) : Prop where
  length : pat.length = q + 2
  pos : 1 ≤ q
  quote : pat[q]? = some dquote
  escape : ∀ k ≤ q, ∀ c ∈ [dquote, backslash], run (feed pat) k [backslash, c] ≤ q
  part : ∀ k ≤ q, ∀ s ∈ payloadParts, run (feed pat) k s ≤ q
  argv : ∀ k ≤ q, run (feed pat) k (bytes "\",\"argv\":[") ≤ q ∧
    run (feed pat) k (bytes "\",\"argv\":[" ++ [dquote]) ≤ q
  next : ∀ k ≤ q + 1, run (feed pat) k [comma, dquote] ≤ q
  stop : ∀ k ≤ q + 1, run (feed pat) k (bytes "]\x7d") ≤ q

def hashWord : Bytes := bytes "\x7b\"h"

def sigWord : Bytes := bytes ",\"sig\":"

theorem barred_hashWord : Barred hashWord 1 := by
  constructor <;> decide

theorem barred_sigWord : Barred sigWord 5 := by
  constructor <;> decide

namespace Barred

theorem feed_char (h : Barred pat q) (hk : k ≤ q) (hc : c ≠ dquote) : feed pat k c ≤ q := by
  have hlen := h.length
  have hpos := h.pos
  unfold feed
  split_ifs with hfound hfirst hnext
  · exact hk
  · exact hpos
  · -- The letter at the quote is the quote.
    have hne : k ≠ q := by
      rintro rfl
      rw [h.quote, some.injEq] at hnext
      exact hc hnext.symm
    omega
  · exact Nat.zero_le q

theorem feed_close (h : Barred pat q) (hk : k ≤ q) : feed pat k dquote ≤ q + 1 := by
  have hpos := h.pos
  unfold feed
  split_ifs <;> omega

theorem run_text (h : Barred pat q) (hk : k ≤ q) (hs : dquote ∉ s) : run (feed pat) k s ≤ q := by
  induction s generalizing k with
  | nil => exact hk
  | cons c s ih =>
    have hc : c ≠ dquote := fun heq => hs (heq ▸ mem_cons_self)
    exact ih (h.feed_char hk hc) fun hmem => hs (mem_cons_of_mem c hmem)

theorem run_jesc_char (h : Barred pat q) (hk : k ≤ q) (c : UInt8) : run (feed pat) k (jesc_char c) ≤ q := by
  unfold jesc_char
  split_ifs with hesc hctl
  · exact h.escape k hk c (by simpa using hesc)
  · refine h.run_text hk fun hmem => ?_
    rcases mem_append.mp hmem with hmem | hmem
    · revert hmem
      decide
    · obtain ⟨d, hd, heq⟩ := mem_hexFixed hmem
      exact plainChar_ne_dquote (hexDigit_spec d hd).2.2.1 heq.symm
  · push Not at hesc
    exact h.feed_char hk hesc.1

theorem run_jesc (h : Barred pat q) (hk : k ≤ q) (s : Bytes) : run (feed pat) k (s.flatMap jesc_char) ≤ q := by
  induction s generalizing k with
  | nil => exact hk
  | cons c s ih =>
    rw [flatMap_cons, run_append]
    exact ih (h.run_jesc_char hk c)

theorem run_jesc_close (h : Barred pat q) (hk : k ≤ q) (s : Bytes) :
    run (feed pat) k (s.flatMap jesc_char ++ [dquote]) ≤ q + 1 := by
  rw [run_append]
  exact h.feed_close (h.run_jesc hk s)

theorem run_prefix (h : Barred pat q) {t : Bytes} (ht : run (feed pat) k t ≤ q + 1) (hs : s <+: t) :
    run (feed pat) k s ≤ q + 1 := by
  have hlen := h.length
  obtain ⟨r, rfl⟩ := hs
  have := run_feed_lt_of_append (show run (feed pat) k (s ++ r) < pat.length by omega)
  omega

end Barred

theorem jesc_loop_some (h : jesc_loop cap dst s = some one) : one = dst ++ (s.flatMap jesc_char ++ [dquote]) := by
  induction s generalizing dst with
  | nil => simpa [jesc_loop] using h.symm
  | cons c s ih =>
    simp only [jesc_loop] at h
    split_ifs at h
    simpa using ih h

theorem jesc_some (h : jesc cap s = some one) : one = dquote :: (s.flatMap jesc_char ++ [dquote]) := by
  unfold jesc at h
  split_ifs at h
  exact jesc_loop_some h

theorem strncat_strncat (cap : Nat) (dst s t : Bytes) :
    strncat cap (strncat cap dst s) t = strncat cap dst (s ++ t) := by
  simp only [strncat, append_assoc, take_append, length_append, length_take]
  congr 3
  omega

theorem strncat_front : strncat cap dst s <+: dst ++ s :=
  (prefix_append_right_inj dst).mpr <| take_prefix _ _

theorem argv_loop_induction {P : Bytes → Prop}
    (hfirst : ∀ s av, av <+: dquote :: (cstr s).flatMap jesc_char ++ [dquote] → P av)
    (hnext : ∀ s av av', P av →
      av' <+: av ++ (comma :: dquote :: (cstr s).flatMap jesc_char ++ [dquote]) → P av') (hav : av = [] ∨ P av) (h : argv_loop av args = some out) :
    out = [] ∨ P out := by
  induction args generalizing av with
  | nil =>
    simp only [argv_loop, some.injEq] at h
    exact h ▸ hav
  | cons s args ih =>
    simp only [argv_loop] at h
    split at h
    · exact absurd h (by simp)
    · rename_i one hone
      refine ih (.inr ?_) h
      rw [jesc_some hone]
      split_ifs with hne
      · rw [strncat_strncat]
        exact hnext s av _ (hav.resolve_left hne) strncat_front
      · rw [not_not.mp hne]
        exact hfirst s _ strncat_front

theorem Barred.run_argv (h : Barred pat q) (hk : k ≤ q)
    (hav : argv_loop [] args = some av) : run (feed pat) k (bytes "\",\"argv\":[" ++ av) ≤ q + 1 := by
  have hloop : av = [] ∨ run (feed pat) k (bytes "\",\"argv\":[" ++ av) ≤ q + 1 := by
    refine argv_loop_induction (P := fun av => run (feed pat) k (bytes "\",\"argv\":[" ++ av) ≤ q + 1) ?_ ?_
      (.inl rfl) hav
    · intro s av hcut
      refine h.run_prefix ?_ ((prefix_append_right_inj _).mpr hcut)
      rw [cons_append, append_cons, run_append]
      exact h.run_jesc_close (h.argv k hk).2 _
    · intro s av av' hone hcut
      refine h.run_prefix ?_ ((prefix_append_right_inj _).mpr hcut)
      have hsplit : bytes "\",\"argv\":[" ++ (av ++ (comma :: dquote :: (cstr s).flatMap jesc_char ++ [dquote])) =
          bytes "\",\"argv\":[" ++ av ++ ([comma, dquote] ++ ((cstr s).flatMap jesc_char ++ [dquote])) := by
        simp
      rw [hsplit, run_append, run_append]
      exact h.run_jesc_close (h.next _ hone) _
  rcases hloop with rfl | hrun
  · rw [append_nil]
    exact Nat.le_succ_of_le (h.argv k hk).1
  · exact hrun

section

variable {C : Crypto} {build : Build} {c : Call C}

theorem mem_cstr (h : x ∈ cstr s) : x ∈ s := (takeWhile_sublist _).subset h

structure NameOk (s : Bytes) : Prop where
  quote : dquote ∉ s
  inline : Inline s

theorem nameOk_cstr (h : dquote ∉ s ∧ newline ∉ s) : NameOk (cstr s) := by
  refine ⟨fun hq => h.1 (mem_cstr hq), fun x hx => ⟨?_, ?_⟩⟩
  · rintro rfl
    exact h.2 (mem_cstr hx)
  · rintro rfl
    exact not_mem_zero_cstr s hx

theorem Call.Clean.alg_ok (h : c.Clean) : NameOk (cstr (c.alg.getD (digest_alg build))) := by
  apply nameOk_cstr
  rcases halg : c.alg with _ | s
  · have hboth : ∀ s ∈ [bytes "sha256", bytes "fnv1a64"], dquote ∉ s ∧ newline ∉ s := by decide
    refine hboth _ ?_
    simp only [getD_none, digest_alg]
    split_ifs <;> simp
  · exact h.alg s halg

theorem Call.Clean.backends_ok (h : c.Clean) : NameOk (cstr (c.backends.getD [])) := by
  apply nameOk_cstr
  rcases hback : c.backends with _ | s
  · decide
  · exact h.backends s hback

theorem audit_payload_some (h : audit_payload build c = some payload) :
    ∃ av, argv_loop [] (c.argv.getD []) = some av ∧ payload = bytes "\x7b\"ts\":" ++ fmtInt c.ts ++
      bytes ",\"pid\":" ++ fmtInt c.pid ++ bytes ",\"digest\":\"" ++ cstr c.digest ++ bytes "\",\"alg\":\"" ++
      cstr (c.alg.getD (digest_alg build)) ++ bytes "\",\"backends\":\"" ++ cstr (c.backends.getD []) ++
      (bytes "\",\"argv\":[" ++ av) ++ bytes "]\x7d" ∧ payload.length < 2048 := by
  unfold audit_payload at h
  split at h
  · exact absurd h (by simp)
  · rename_i av hav
    dsimp only at h
    split_ifs at h with hlen
    obtain rfl := some.inj h
    exact ⟨av, hav, by simp only [append_assoc], by omega⟩

theorem Barred.run_payload (h : Barred pat q) (hc : c.Clean)
    (hp : audit_payload build c = some payload) : run (feed pat) 0 payload ≤ q := by
  obtain ⟨av, hav, rfl, -⟩ := audit_payload_some hp
  have part : ∀ {k : Nat}, k ≤ q → ∀ s ∈ payloadParts, run (feed pat) k s ≤ q := fun hk => h.part _ hk
  simp only [run_append _ _ (bytes "]\x7d"), run_append _ _ (bytes "\",\"argv\":[" ++ av), run_append _ _ (cstr _),
    run_append _ _ (fmtInt _), run_append _ _ (bytes ",\"pid\":"), run_append _ _ (bytes ",\"digest\":\""),
    run_append _ _ (bytes "\",\"alg\":\""), run_append _ _ (bytes "\",\"backends\":\"")]
  apply h.stop
  refine h.run_argv ?_ hav
  refine h.run_text (part ?_ _ (by decide)) hc.backends_ok.quote
  refine h.run_text (part ?_ _ (by decide)) hc.alg_ok.quote
  refine h.run_text (part ?_ _ (by decide)) (nameOk_cstr hc.digest).quote
  refine h.run_text (part ?_ _ (by decide)) (fmtInt_plain _).not_mem_dquote
  exact h.run_text (part (Nat.zero_le q) _ (by decide)) (fmtInt_plain _).not_mem_dquote

theorem inline_jesc_char (hx : x ≠ 0) : Inline (jesc_char x) := by
  unfold jesc_char
  split_ifs with hesc hctl
  · rcases hesc with rfl | rfl <;> decide
  · refine (inline_append _ _).mpr ⟨by decide, fun y hy => ?_⟩
    obtain ⟨d, hd, rfl⟩ := mem_hexFixed hy
    have := (hexDigit_spec d hd).2.2.1
    exact ⟨plainChar_ne_newline this, plainChar_ne_zero this⟩
  · refine (inline_cons _ _).mpr ⟨⟨?_, hx⟩, inline_nil⟩
    rintro rfl
    exact hctl (by decide)

theorem inline_jesc : Inline ((cstr s).flatMap jesc_char) := by
  intro y hy
  obtain ⟨x, hx, hy⟩ := mem_flatMap.mp hy
  have hne : x ≠ 0 := by
    rintro rfl
    exact not_mem_zero_cstr s hx
  exact inline_jesc_char hne y hy

theorem inline_argv (h : argv_loop [] args = some av) : Inline av := by
  have hloop : av = [] ∨ Inline av := by
    refine argv_loop_induction (P := Inline) ?_ ?_ (.inl rfl) h
    · intro s av hcut y hy
      have hwhole : Inline (dquote :: (cstr s).flatMap jesc_char ++ [dquote]) := by
        simpa [inline_jesc] using (by decide : dquote ≠ newline ∧ dquote ≠ 0)
      exact hwhole y (hcut.subset hy)
    · intro s av av' hav hcut y hy
      have hwhole : Inline (av ++ (comma :: dquote :: (cstr s).flatMap jesc_char ++ [dquote])) := by
        simpa [inline_jesc, hav] using
          (by decide : (comma ≠ newline ∧ comma ≠ 0) ∧ dquote ≠ newline ∧ dquote ≠ 0)
      exact hwhole y (hcut.subset hy)
  rcases hloop with rfl | hav
  · exact inline_nil
  · exact hav

theorem inline_payload (hc : c.Clean) {payload : Bytes} (hp : audit_payload build c = some payload) :
    Inline payload := by
  obtain ⟨av, hav, rfl, -⟩ := audit_payload_some hp
  have hlit : ∀ s ∈ payloadParts ++ [bytes "\",\"argv\":[", bytes "]\x7d"], Inline s := by decide
  simp only [inline_append]
  refine ⟨⟨⟨⟨⟨⟨⟨⟨⟨⟨⟨?_, ?_⟩, ?_⟩, ?_⟩, ?_⟩, ?_⟩, ?_⟩, ?_⟩, ?_⟩, ?_⟩, ?_, ?_⟩, ?_⟩
  · exact hlit _ (by decide)
  · exact (fmtInt_plain _).inline
  · exact hlit _ (by decide)
  · exact (fmtInt_plain _).inline
  · exact hlit _ (by decide)
  · exact (nameOk_cstr hc.digest).inline
  · exact hlit _ (by decide)
  · exact hc.alg_ok.inline
  · exact hlit _ (by decide)
  · exact hc.backends_ok.inline
  · exact hlit _ (by decide)
  · exact inline_argv hav
  · exact hlit _ (by decide)

theorem hash_ok {prev payload hash : Bytes} (h : enforce_audit_hash build prev payload = some hash) :
    Plain hash ∧ hash ≠ [] ∧ hash.length < ENFORCE_DIGEST_HEX_MAX := by
  have key : Plain hash ∧ (hash.length = 16 ∨ hash.length = 64) := by
    unfold enforce_audit_hash at h
    split at h
    · split_ifs at h
      obtain ⟨md, -, rfl⟩ := map_eq_some_iff.mp h
      refine ⟨fun x hx => ?_, .inr ?_⟩
      · obtain ⟨b, -, hx⟩ := mem_flatMap.mp hx
        exact fmtHex2_plain b x hx
      · simp [hex32, length_flatMap, fmtHex2]
    · obtain rfl := some.inj h
      exact ⟨fmtHex16_plain _, .inl (fmtHex16_length _)⟩
  refine ⟨key.1, ?_, ?_⟩
  · rintro rfl
    simpa using key.2
  · have := key.2
    simp only [ENFORCE_DIGEST_HEX_MAX]
    omega

def lineEnd (C : Crypto) (sig : Option Bytes) : Bytes :=
  match sig with
  | some sig => dquote :: (SIG_MARKER ++ (C.encodeBlock sig ++ bytes "\"\x7d"))
  | none => bytes "\"\x7d"

def recordLine (C : Crypto) (payload hash : Bytes) (sig : Option Bytes) : Bytes :=
  payload ++ (HASH_MARKER ++ (hash ++ (lineEnd C sig ++ [newline])))

theorem audit_tail_some (hC : Base64 C) {prev payload hash tail : Bytes}
    (h : audit_tail build key prev payload hash = some tail) :
    ∃ sig, (loaded build key).map (C.digestSign · (prev ++ payload)) = sig.map some ∧
      tail = HASH_MARKER ++ (hash ++ (lineEnd C sig ++ [newline])) := by
  have hend : bytes "\"\x7d\n" = bytes "\"\x7d" ++ [newline] := rfl
  have hquote : bytes "\"" = [dquote] := rfl
  unfold audit_tail at h
  split at h
  · rename_i key hkey
    obtain ⟨text, htext, rfl⟩ := map_eq_some_iff.mp h
    unfold audit_sign at htext
    split_ifs at htext
    obtain ⟨sig, hsig, rfl⟩ := map_eq_some_iff.mp htext
    refine ⟨some sig, by simp [hkey, hsig], ?_⟩
    simp only [lineEnd, (encodeBlock_plain hC.alphabet sig).cstr, hend, hquote, append_assoc,
      cons_append, nil_append]
  · rename_i hkey
    obtain rfl := some.inj h
    refine ⟨none, by simp [hkey], by simp only [lineEnd, hend, append_assoc]⟩

/-- What the line of a record is made of: its payload, its hash behind the hash `prev`, and its signature. -/
structure IsRecord (C : Crypto) (build : Build) (prev : Bytes) (c : Call C) (payload hash : Bytes)
    (sig : Option Bytes) : Prop where
  payload_eq : audit_payload build c = some payload
  hash_eq : enforce_audit_hash build prev payload = some hash
  signed : (loaded build c.g_sign_key).map (C.digestSign · (prev ++ payload)) = sig.map some
  fits : (recordLine C payload hash sig).length < AUDIT_LINE_MAX

theorem audit_record_some (hC : Base64 C) {prev line hash : Bytes}
    (h : audit_record build prev c = some (line, hash)) :
    ∃ payload sig, IsRecord C build prev c payload hash sig ∧ line = recordLine C payload hash sig := by
  simp only [audit_record, bind_eq_bind, bind_eq_some_iff] at h
  obtain ⟨payload, hpayload, hash', hhash, tail, htail, h⟩ := h
  split_ifs at h with hlen
  obtain ⟨rfl, rfl⟩ := Prod.mk.inj (some.inj h)
  obtain ⟨sig, hsig, rfl⟩ := audit_tail_some hC htail
  exact ⟨payload, sig, ⟨hpayload, hhash, hsig, Nat.lt_of_not_le hlen⟩, rfl⟩

theorem inline_lineEnd (hC : Base64 C) : Inline (lineEnd C sig) := by
  have hlit : (dquote ≠ newline ∧ dquote ≠ 0) ∧ Inline SIG_MARKER ∧ Inline (bytes "\"\x7d") := by decide
  cases sig with
  | none => exact hlit.2.2
  | some sig =>
    simp only [lineEnd, inline_cons, inline_append]
    exact ⟨hlit.1, hlit.2.1, (encodeBlock_plain hC.alphabet sig).inline, hlit.2.2⟩

theorem take_payload (payload hash : Bytes) :
    (recordLine C payload hash sig).take ((recordLine C payload hash sig).length -
    (HASH_MARKER ++ (hash ++ (lineEnd C sig ++ [newline]))).length) = payload := by
  rw [recordLine, length_append, Nat.add_sub_cancel]
  exact take_left

namespace IsRecord

variable {prev payload hash : Bytes} (r : IsRecord C build prev c payload hash sig)
include r

theorem exists_body (hC : Base64 C) (hc : c.Clean) :
    ∃ body, recordLine C payload hash sig = body ++ [newline] ∧ Inline body := by
  have hmark : Inline HASH_MARKER := by decide
  refine ⟨payload ++ (HASH_MARKER ++ (hash ++ lineEnd C sig)), by simp only [recordLine, append_assoc], ?_⟩
  simp only [inline_append]
  exact ⟨inline_payload hc r.payload_eq, hmark, (hash_ok r.hash_eq).1.inline, inline_lineEnd hC⟩

theorem isLine (hC : Base64 C) (hc : c.Clean) : IsLine AUDIT_LINE_MAX (recordLine C payload hash sig) := by
  obtain ⟨body, heq, hbody⟩ := r.exists_body hC hc
  exact ⟨body, heq, hbody.not_mem_newline, r.fits⟩

theorem cstr_line (hC : Base64 C) (hc : c.Clean) :
    cstr (recordLine C payload hash sig) = recordLine C payload hash sig := by
  obtain ⟨body, heq, hbody⟩ := r.exists_body hC hc
  apply cstr_eq_self
  rw [heq, mem_append, not_or]
  exact ⟨hbody.not_mem_zero, by decide⟩

theorem strstr_hash (hc : c.Clean) : strstr (recordLine C payload hash sig) HASH_MARKER =
    some (HASH_MARKER ++ (hash ++ (lineEnd C sig ++ [newline]))) := by
  have hrun := barred_hashWord.run_payload hc r.payload_eq
  have hlast : ∀ k ≤ 1, run (feed hashWord) k hashWord.dropLast < hashWord.length := by decide
  refine strstr_put (a := 123) (v := bytes "\"h") (k := 0) (by decide) (by decide) ?_ _
  have hword : (123 : UInt8) :: bytes "\"h" = hashWord := rfl
  rw [hword, run_append]
  exact hlast _ hrun

theorem extract_hash_eq (hc : c.Clean) : extract_hash (recordLine C payload hash sig) = hash := by
  obtain ⟨hplain, -, hlen⟩ := hash_ok r.hash_eq
  obtain ⟨rest, hrest⟩ : ∃ rest, lineEnd C sig = dquote :: rest := by
    cases sig with
    | none => exact ⟨_, rfl⟩
    | some sig => exact ⟨_, rfl⟩
  rw [extract_hash, extract, r.strstr_hash hc]
  simp only
  rw [drop_left, hrest, cons_append, takeWhile_dquote hplain.not_mem_dquote, take_of_length_le (by omega)]

end IsRecord

theorem IsRecord.strstr_sig {prev payload hash sig : Bytes} (r : IsRecord C build prev c payload hash (some sig))
    (hc : c.Clean) : strstr (recordLine C payload hash (some sig)) SIG_MARKER =
      some (SIG_MARKER ++ (C.encodeBlock sig ++ dquote :: bytes "\x7d\n")) := by
  have hsplit : recordLine C payload hash (some sig) = payload ++ HASH_MARKER ++ hash ++ [dquote] ++
      (SIG_MARKER ++ (C.encodeBlock sig ++ dquote :: bytes "\x7d\n")) := by
    have hend : bytes "\"\x7d" ++ [newline] = dquote :: bytes "\x7d\n" := rfl
    simp only [recordLine, lineEnd, append_assoc, cons_append, nil_append, hend]
  rw [hsplit]
  have hrun := barred_sigWord.run_payload hc r.payload_eq
  have hmark : ∀ k ≤ 5, run (feed sigWord) k HASH_MARKER ≤ 5 := by decide
  have hlast : ∀ k ≤ 6, run (feed sigWord) k sigWord.dropLast < sigWord.length := by decide
  refine strstr_put (a := comma) (v := bytes "\"sig\":") (k := 0) (by decide) (by decide) ?_ _
  have hword : comma :: bytes "\"sig\":" = sigWord := rfl
  rw [hword, run_append, run_append, run_append, run_append]
  apply hlast
  apply barred_sigWord.feed_close
  exact barred_sigWord.run_text (hmark _ hrun) (hash_ok r.hash_eq).1.not_mem_dquote

theorem IsRecord.extract_sig_eq {prev payload hash sig : Bytes}
    (r : IsRecord C build prev c payload hash (some sig))
    (hC : Base64 C) (hc : c.Clean) (hlen : sig.length = 64) :
    extract_sig (recordLine C payload hash (some sig)) = C.encodeBlock sig := by
  have hplain := encodeBlock_plain hC.alphabet sig
  have hsize := hC.length sig
  rw [extract_sig, extract, r.strstr_sig hc]
  simp only
  rw [drop_left, takeWhile_dquote hplain.not_mem_dquote, take_of_length_le]
  rw [hsize, hlen]
  decide

theorem audit_verify_sig_signed (hC : Base64 C) (hpair : KeyPair C key pub)
    {prev payload sig : Bytes} (hsig : C.digestSign key (prev ++ payload) = some sig)
    (hroom : prev.length + payload.length + 1 ≤ AUDIT_LINE_MAX) :
    audit_verify_sig pub prev payload (C.encodeBlock sig) = true ∧ C.encodeBlock sig ≠ [] ∧ sig.length = 64 := by
  have hlen : sig.length = 64 := by
    obtain ⟨sig', hsig', hlen⟩ := hpair.signs (prev ++ payload)
    rw [hsig, some.injEq] at hsig'
    exact hsig' ▸ hlen
  have hsize : (C.encodeBlock sig).length = 88 := by rw [hC.length sig, hlen]
  have hfill : base64Fill sig = 2 := by simp [base64Fill, hlen]
  obtain ⟨body, henc, hbody⟩ := hC.padded sig
  have hpad : base64_pad (C.encodeBlock sig) = 2 := by
    rw [henc, hfill]
    exact base64_pad_eq hbody (Nat.le_refl 2)
  have htake : (sig ++ replicate 2 0).take ((sig ++ replicate 2 (0 : UInt8)).length - 2) = sig := by
    simp
  have haccepts : C.digestVerify pub (sig ++ replicate 2 0) ((sig ++ replicate 2 (0 : UInt8)).length - 2)
      (prev ++ payload) = true := (hpair.accepts _ _ _).mpr (by rw [htake]; exact hsig)
  refine ⟨?_, ?_, hlen⟩
  · simp only [audit_verify_sig]
    rw [if_neg (by omega), if_neg (by rw [hsize]; decide), hC.decode, hfill]
    simp only [hpad, htake]
    rw [if_neg (by simp), hpair.init, haccepts]
    rfl
  · intro hnil
    rw [hnil] at hsize
    simp at hsize

theorem IsRecord.verify_line_eq {prev payload hash : Bytes}
    (r : IsRecord C build prev c payload hash sig) (hC : Base64 C) (hc : c.Clean)
      (hprev : prev.length ≤ 64) (hpair : Paired c.g_sign_key pub) :
    verify_line build pub prev (recordLine C payload hash sig) = some hash := by
  obtain ⟨-, hne, -⟩ := hash_ok r.hash_eq
  obtain ⟨body, hbody, -⟩ := r.exists_body hC hc
  obtain ⟨av, -, hpayload, hshort⟩ := audit_payload_some r.payload_eq
  have hfull : payload ≠ [] := by
    rw [hpayload]
    simp [bytes]
  have hroom : prev.length + payload.length + 1 ≤ AUDIT_LINE_MAX := by
    simp only [AUDIT_LINE_MAX]
    omega
  have hlast : (recordLine C payload hash sig).getLast? = some newline := by
    rw [hbody]
    simp
  simp only [verify_line, r.strstr_hash hc, take_payload, r.extract_hash_eq hc]
  rw [if_neg (by simpa using hlast), if_neg (by simp [hfull, hne, r.hash_eq])]
  cases hpub : loaded build pub with
  | none => rfl
  | some key =>
    obtain ⟨hbuild, rfl⟩ : build.isSome ∧ pub = some key := by
      unfold loaded at hpub
      split_ifs at hpub with hbuild
      exact ⟨hbuild, hpub⟩
    obtain ⟨priv, hpriv, hmatch⟩ := hpair key rfl
    obtain ⟨x, rfl, hx⟩ : ∃ x, sig = some x ∧ C.digestSign priv (prev ++ payload) = some x := by
      have hsigned := r.signed
      rw [loaded, if_pos hbuild, mem_def.mp hpriv] at hsigned
      cases sig with
      | none => simp at hsigned
      | some x => exact ⟨x, rfl, by simpa using hsigned⟩
    obtain ⟨hok, hfullsig, hlen⟩ := audit_verify_sig_signed hC hmatch hx hroom
    simp only [r.extract_sig_eq hC hc hlen]
    rw [if_neg (by simp [hfullsig, hok])]

theorem verify_loop_snoc (pub : Option C.PublicKey) (prev : Bytes) (count : Nat)
    (lines : List Bytes) (line : Bytes) :
    verify_loop build pub prev count (lines ++ [line]) = (verify_loop build pub prev count lines).bind fun r =>
      (verify_line build pub r.2 (cstr line)).map fun hash => (r.1 + 1, hash) := by
  induction lines generalizing prev count with
  | nil =>
    simp only [nil_append, verify_loop, bind_some]
    cases verify_line build pub prev (cstr line) <;> rfl
  | cons l lines ih =>
    simp only [cons_append, verify_loop]
    cases verify_line build pub prev (cstr l) with
    | none => rfl
    | some stored => exact ih stored (count + 1)

def Trail.hashes (t : Trail) : List Bytes := t.outcomes.filterMap Outcome.hash?

def Trail.head (t : Trail) : Bytes := t.hashes.getLast?.getD (bytes "0")

/-- What every call preserves: the file is made of whole lines, and the replay with a key that fits goes
through all of them. -/
structure TrailInv (build : Build) (fits : Option C.PublicKey → Prop) (t : Trail) (lines : List Bytes) : Prop where
  file : (t.file = none ∧ lines = [] ∧ t.hashes = []) ∨ t.file = some lines.flatten
  whole : ∀ l ∈ lines, IsLine AUDIT_LINE_MAX l
  replay : ∀ pub, fits pub → verify_loop build pub (bytes "0") 0 lines = some (t.hashes.length, t.head)
  head : t.head ≠ [] ∧ t.head.length ≤ 64
  intact : Outcome.tampered ∉ t.outcomes

theorem TrailInv.verify {t : Trail} {lines : List Bytes}
    (h : TrailInv build fits t lines) {pub : Option C.PublicKey} (hpub : fits pub) :
    ∃ last, verify_chain build pub t.file = some (t.hashes.length, last) ∧
      (if last ≠ [] then last else bytes "0") = t.head ∧ ∀ hash ∈ t.hashes.getLast?, last = hash := by
  rcases h.file with ⟨hfile, -, hnone⟩ | hfile
  · refine ⟨[], by rw [hfile, hnone]; rfl, ?_, by simp [hnone]⟩
    simp [Trail.head, hnone]
  · refine ⟨t.head, ?_, if_pos h.head.1, ?_⟩
    · rw [hfile, verify_chain, fgetsAll_flatten h.whole, h.replay pub hpub]
    · intro hash hhash
      rw [Trail.head, mem_def.mp hhash]
      rfl

theorem TrailInv.keep
    (h : TrailInv build fits t lines) {file : Option Bytes} (hfile : file = t.file ∨
      file = some (t.file.getD [])) :
    TrailInv build fits ⟨file, t.outcomes ++ [.failed]⟩ lines := by
  have hhashes : Trail.hashes ⟨file, t.outcomes ++ [.failed]⟩ = t.hashes := by
    simp [Trail.hashes, Outcome.hash?]
  have hhead : Trail.head ⟨file, t.outcomes ++ [.failed]⟩ = t.head := by
    rw [Trail.head, hhashes, Trail.head]
  refine ⟨?_, h.whole, ?_, ?_, ?_⟩
  · rw [hhashes]
    rcases hfile with rfl | rfl
    · exact h.file
    · rcases h.file with ⟨hnone, hnil, -⟩ | hsome
      · exact .inr (by simp [hnone, hnil])
      · exact .inr (by simp [hsome])
  · rw [hhashes, hhead]
    exact h.replay
  · rw [hhead]
    exact h.head
  · simpa using h.intact

theorem TrailInv.record {fits : Option C.PublicKey → Prop}
    (h : TrailInv build fits t lines) (hC : Base64 C) (hc : c.Clean)
    (hkeys : ∀ pub, fits pub → Paired c.g_sign_key pub) {line hash : Bytes}
    (hrec : audit_record build t.head c = some (line, hash)) :
    TrailInv build fits ⟨some (t.file.getD [] ++ line), t.outcomes ++ [.appended hash]⟩ (lines ++ [line]) := by
  obtain ⟨payload, sig, r, rfl⟩ := audit_record_some hC hrec
  obtain ⟨-, hne, hlen⟩ := hash_ok r.hash_eq
  generalize hfile : some (t.file.getD [] ++ recordLine C payload hash sig) = file
  have hhashes : Trail.hashes ⟨file, t.outcomes ++ [.appended hash]⟩ = t.hashes ++ [hash] := by
    simp [Trail.hashes, Outcome.hash?]
  have hhead : Trail.head ⟨file, t.outcomes ++ [.appended hash]⟩ = hash := by
    simp [Trail.head, hhashes]
  refine ⟨.inr ?_, ?_, fun pub hpub => ?_, ?_, ?_⟩
  · rw [← hfile]
    rcases h.file with ⟨hnone, hnil, -⟩ | hsome
    · simp [hnone, hnil]
    · simp [hsome]
  · intro l hl
    rcases mem_append.mp hl with hl | hl
    · exact h.whole l hl
    · rw [mem_singleton.mp hl]
      exact r.isLine hC hc
  · rw [verify_loop_snoc, h.replay pub hpub, bind_some, r.cstr_line hC hc,
      r.verify_line_eq hC hc h.head.2 (hkeys pub hpub), hhashes, hhead]
    simp
  · rw [hhead]
    simp only [ENFORCE_DIGEST_HEX_MAX] at hlen
    exact ⟨hne, by omega⟩
  · simpa using h.intact

/-- After every call of the audit the trail still verifies with each key that fits. -/
theorem TrailInv.step {fits : Option C.PublicKey → Prop}
    (h : TrailInv build fits t lines) (hC : Base64 C) (hc : c.Clean)
    (hkeys : ∀ pub, fits pub → Paired c.g_sign_key pub) (hown : fits c.g_verify_key) :
    ∃ lines', TrailInv build fits (t.step build c) lines' := by
  obtain ⟨last, hverify, hprev, -⟩ := h.verify hown
  simp only [Trail.step, enforce_audit_append, hverify, hprev]
  cases hrec : audit_record build t.head c with
  | none => exact ⟨lines, h.keep (.inl rfl)⟩
  | some r =>
    obtain ⟨line, hash⟩ := r
    dsimp only
    split_ifs
    · exact ⟨_, h.record hC hc hkeys hrec⟩
    · exact ⟨lines, h.keep (.inr rfl)⟩
    · exact ⟨lines, h.keep (.inl rfl)⟩

end

/-- After any calls on a trail that starts without a file or with an empty one, no call was refused for the
trail that the others wrote, and the replay counts the calls that succeeded and ends with the last hash. -/
theorem audit_trail_verifies {C : Crypto} (hC : Base64 C) (build : Build) (calls : List (Call C))
    (hclean : ∀ c ∈ calls, c.Clean) (pub : Option C.PublicKey)
    (hpub : ∀ c ∈ calls, Paired c.g_sign_key pub ∧ ∀ c' ∈ calls, Paired c'.g_sign_key c.g_verify_key)
    (file : Option Bytes) (hfile : file = none ∨ file = some []) :
    let t := run (Trail.step build) ⟨file, []⟩ calls
    Outcome.tampered ∉ t.outcomes ∧
      ∃ last, enforce_audit_verify build pub t.file = some (t.hashes.length, last) ∧
        ∀ hash ∈ t.hashes.getLast?, last = hash := by
  let fits : Option C.PublicKey → Prop := fun pub => ∀ c ∈ calls, Paired c.g_sign_key pub
  have hstart : ∃ lines, TrailInv build fits ⟨file, []⟩ lines := by
    have hzero : bytes "0" ≠ [] ∧ (bytes "0").length ≤ 64 := by decide
    refine ⟨[], ?_, by simp, fun _ _ => rfl, hzero, by simp⟩
    rcases hfile with rfl | rfl
    · exact .inl ⟨rfl, rfl, rfl⟩
    · exact .inr rfl
  have hrun : ∃ lines, TrailInv build fits (run (Trail.step build) ⟨file, []⟩ calls) lines := by
    refine @run_invariant _ _ (fun _ c => c ∈ calls) _ _ _
      (fun t => ∃ lines, TrailInv build fits t lines) ?_ hstart
      (along_of_forall fun _ c hc => hc)
    rintro t c ⟨lines, hinv⟩ hc
    exact hinv.step hC (hclean c hc) (fun pub hp => hp c hc) (hpub c hc).2
  obtain ⟨lines, hinv⟩ := hrun
  obtain ⟨last, hverify, -, hlast⟩ := @TrailInv.verify _ _ _ _ _ hinv pub fun c hc => (hpub c hc).1
  exact ⟨hinv.intact, last, hverify, hlast⟩

def lookalikes : List (Call plainSignatures) :=
  [{ ts := 1, pid := 7, digest := bytes "d1", alg := none, backends := some (bytes "landlock\x7b"),
     argv := some [bytes "\x7b\"hash\":\"0\"\x7d\n", bytes "\x7b", bytes "sig"], g_sign_key := some (),
     g_verify_key := none, opens := true, writes := true },
   { ts := 2, pid := 8, digest := bytes "d2", alg := some (bytes "sha256"), backends := none,
     argv := some [bytes "a", bytes ",\"sig\":\""], g_sign_key := some (),
     g_verify_key := some (), opens := true, writes := true }]

/-- The trail of both verifies, with the public key and with two records. -/
theorem audit_trail_verifies_lookalikes :
    (∀ c ∈ lookalikes, c.Clean) ∧
    Outcome.tampered ∉ (run (Trail.step (some fun _ => some (Vector.replicate 32 0)))
      ⟨none, []⟩ lookalikes).outcomes ∧
    ∃ last, enforce_audit_verify (C := plainSignatures) (some fun _ => some (Vector.replicate 32 0)) (some ())
      (run (Trail.step (some fun _ => some (Vector.replicate 32 0))) ⟨none, []⟩ lookalikes).file =
        some (2, last) := by
  have hclean : ∀ c ∈ lookalikes, c.Clean := by
    intro c hc
    simp only [lookalikes, mem_cons, not_mem_nil, or_false] at hc
    rcases hc with rfl | rfl
    · exact ⟨by decide, by decide, by decide⟩
    · exact ⟨by decide, by decide, by decide⟩
  have hpaired : ∀ c ∈ lookalikes, ∀ pub : Option Unit, Paired (C := plainSignatures) c.g_sign_key pub := by
    intro c hc pub key _
    have hkey : c.g_sign_key = some () := by
      simp only [lookalikes, mem_cons, not_mem_nil, or_false] at hc
      rcases hc with rfl | rfl <;> rfl
    exact ⟨(), hkey, keyPair_plainSignatures⟩
  obtain ⟨hintact, last, hverify, -⟩ := audit_trail_verifies base64_plainSignatures
    (some fun _ => some (Vector.replicate 32 0)) lookalikes hclean (some ())
    (fun c hc => ⟨hpaired c hc _, fun c' hc' => hpaired c' hc' _⟩) none (.inl rfl)
  have htwo : (run (Trail.step (some fun _ => some (Vector.replicate 32 0))) ⟨none, []⟩ lookalikes).hashes.length =
      2 := by decide +kernel
  rw [htwo] at hverify
  exact ⟨hclean, hintact, last, hverify⟩

end Retrace.Enforce
