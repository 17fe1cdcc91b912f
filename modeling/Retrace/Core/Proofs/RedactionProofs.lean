import Retrace.Core.Proofs.RedactProofs
import Retrace.Wildcard.Wildcard

/-!
# What redaction hides

`glob_whole` decides the language of its pattern, and the tokens of the text behind redaction are those of
the text before it without the first 64 that a pattern matches.
-/

namespace Retrace.Core

open CLib Wildcard List

variable {pat : Bytes} {ts : List Bytes} {s : Bytes} {budget : Nat} {c : UInt8}

def glob_atoms (pat : Bytes) : List (Atom UInt8) := pat.map fun c => if c = star then .star else .one (· == c)

theorem glob_atoms_drop (h : pat[p]? = some c) :
    (glob_atoms pat).drop p = (if c = star then .star else .one (· == c)) :: (glob_atoms pat).drop (p + 1) := by
  obtain ⟨hp, rfl⟩ := List.getElem?_eq_some_iff.mp h
  rw [glob_atoms, ← map_drop, drop_eq_getElem_cons hp, map_cons, map_drop]

theorem glob_atoms_drop_none (h : pat[p]? = none) : (glob_atoms pat).drop p = [] := by
  rw [glob_atoms, ← map_drop, drop_eq_nil_of_le (List.getElem?_eq_none_iff.mp h), map_nil]

theorem glob_loop_eq {tok pat : Bytes} (fuel : Nat) {t p : Nat} {last : Option (Nat × Nat)} {b : Bool}
    (hlast : ∀ x ∈ last, x.1 ≤ t) (h : search (fun _ => false) fuel (tok.drop t) ((glob_atoms pat).drop p)
      (last.map fun x => (tok.drop x.1, (glob_atoms pat).drop x.2)) = some b) :
    glob_loop tok pat fuel t p last = b := by
  induction fuel generalizing t p last with
  | zero => simp [search] at h
  | succ fuel ih =>
    rw [glob_loop.eq_def]
    dsimp only
    by_cases ht : t < tok.length
    · rw [if_pos ht, getElem?_eq_getElem ht]
      rw [drop_eq_getElem_cons ht] at h
      -- When nothing matches here, both go back to the last star.
      have hback : ((retryAt (last.map fun x => (tok.drop x.1, (glob_atoms pat).drop x.2))).elim (some false)
            fun x => search (fun _ => false) fuel x.1 x.2 (some x)) = some b →
          (last.elim false fun x => glob_loop tok pat fuel (x.1 + 1) x.2 (some (x.1 + 1, x.2))) = b := by
        intro hrun
        cases last with
        | none => simpa [retryAt] using hrun
        | some x =>
          obtain ⟨star_t, star_p⟩ := x
          have hst : star_t < tok.length := lt_of_le_of_lt (hlast _ rfl) ht
          rw [Option.map_some, drop_eq_getElem_cons hst] at hrun
          exact ih (by rintro x ⟨rfl⟩; exact le_rfl) hrun
      cases hp : pat[p]? with
      | none =>
        rw [glob_atoms_drop_none hp, search] at h
        simp only [reduceCtorEq, if_false]
        cases last <;> exact hback h
      | some c =>
        rw [glob_atoms_drop hp] at h
        by_cases hc : c = star
        · rw [if_pos hc, search, if_neg Bool.false_ne_true] at h
          rw [if_pos (congrArg some hc)]
          refine ih (by rintro x ⟨rfl⟩; exact le_rfl) ?_
          rw [Option.map_some, drop_eq_getElem_cons ht]
          exact h
        · rw [if_neg hc, search] at h
          rw [if_neg (fun heq => hc (Option.some.inj heq))]
          by_cases heq : tok[t] = c
          · rw [if_pos (by simpa using heq)] at h
            rw [if_pos (congrArg some heq.symm)]
            exact ih (fun x hx => (hlast x hx).trans (Nat.le_succ t)) h
          · rw [if_neg (by simpa using heq)] at h
            rw [if_neg (fun h => heq (Option.some.inj h).symm)]
            cases last <;> exact hback h
    · rw [if_neg ht]
      rw [drop_eq_nil_of_le (by omega), search, Option.some.injEq] at h
      rw [← h, glob_atoms, ← map_drop, all_map]
      congr 1
      funext c
      by_cases hc : c = star <;> simp [hc, Atom.isStar]

theorem glob_whole_iff : glob_whole tok pat = true ↔ Matches (glob_atoms pat) tok := by
  have hlen : (glob_atoms pat).length = pat.length := length_map _
  have hfuel : (tok.length + 1) * ((glob_atoms pat).length + 1) + (glob_atoms pat).length <
      (tok.length + 2) * (pat.length + 2) := by
    rw [hlen]
    ring_nf
    omega
  obtain ⟨b, hb, hiff⟩ := search_iff hfuel
  have hloop := @glob_loop_eq tok pat _ 0 0 none b (by simp) hb
  rw [glob_whole, hloop, hiff, matchesBut_false]

def Hidden (patterns : List Bytes) (tok : Bytes) : Prop := ∃ pat ∈ patterns, Matches (glob_atoms pat) tok

theorem any_glob_whole_iff : patterns.any (glob_whole tok) = true ↔ Hidden patterns tok := by
  rw [any_eq_true]
  exact exists_congr fun pat => and_congr_right fun _ => glob_whole_iff

instance (patterns : List Bytes) (tok : Bytes) : Decidable (Hidden patterns tok) :=
  decidable_of_iff _ any_glob_whole_iff

theorem tokensFrom_snd {front front' rest : Bytes} (h : rest.length ≤ fuel) (h' : rest.length ≤ fuel') :
    (tokensFrom fuel front rest).map Prod.snd = (tokensFrom fuel' front' rest).map Prod.snd := by
  induction fuel generalizing fuel' front front' rest with
  | zero =>
    obtain rfl : rest = [] := length_eq_zero_iff.mp (by omega)
    cases fuel' <;> rfl
  | succ fuel ih =>
    cases rest with
    | nil => cases fuel' <;> rfl
    | cons c rest =>
      simp only [length_cons] at h h'
      obtain ⟨fuel', rfl⟩ : ∃ n, fuel' = n + 1 := Nat.exists_eq_succ_of_ne_zero (by omega)
      rw [tokensFrom, tokensFrom]
      split_ifs with hc
      · have hlen := dropWhile_token_length hc rest
        have hrest := @ih fuel' (front ++ (c :: rest).takeWhile is_token_char)
          (front' ++ (c :: rest).takeWhile is_token_char) _ (hlen.trans (by omega)) (hlen.trans (by omega))
        simp only [map_cons, hrest]
      · exact ih (by omega) (by omega)

def tokens (s : Bytes) : List Bytes := (tokensFrom s.length [] s).map Prod.snd

theorem tokens_other (hc : is_token_char c = false) : tokens (c :: s) = tokens s := by
  rw [tokens, length_cons, tokensFrom, if_neg (by simp [hc])]
  exact tokensFrom_snd le_rfl le_rfl

theorem tokens_token (hc : is_token_char c = true) :
    tokens (c :: s) = (c :: s).takeWhile is_token_char :: tokens ((c :: s).dropWhile is_token_char) := by
  rw [tokens, length_cons, tokensFrom, if_pos hc]
  simp only [map_cons]
  rw [tokens, tokensFrom_snd (dropWhile_token_length hc s) le_rfl]

theorem tokens_append (hne : tok ≠ []) (htok : ∀ c ∈ tok, is_token_char c = true)
    (hs : ∀ c ∈ s.head?, is_token_char c = false) : tokens (tok ++ s) = tok :: tokens s := by
  have htake : (tok ++ s).takeWhile is_token_char = tok := by
    rw [takeWhile_append_of_pos htok]
    cases s with
    | nil => simp
    | cons c s => simp [hs c rfl]
  have hdrop : (tok ++ s).dropWhile is_token_char = s := by
    rw [dropWhile_append_of_pos htok]
    cases s with
    | nil => rfl
    | cons c s => simp [hs c rfl]
  cases tok with
  | nil => exact absurd rfl hne
  | cons c tok =>
    rw [cons_append] at htake hdrop ⊢
    rw [tokens_token (htok c mem_cons_self), htake, hdrop]

theorem tokens_stars : tokens (replicate n star ++ s) = tokens s := by
  induction n with
  | zero => rfl
  | succ n ih => rw [replicate_succ, cons_append, tokens_other (by decide), ih]

def unhide (patterns : List Bytes) : Nat → List Bytes → List Bytes
  | _, [] => []
  | 0, ts => ts
  | budget + 1, t :: ts =>
    if Hidden patterns t then unhide patterns budget ts else t :: unhide patterns (budget + 1) ts

theorem unhide_zero : unhide patterns 0 ts = ts := by
  cases ts <;> rfl

theorem Redacts.head (h : Redacts patterns budget front s out hits) (hs : ∀ c ∈ s.head?, is_token_char c = false) :
    ∀ c ∈ out.head?, is_token_char c = false := by
  cases h with
  | stop => exact hs
  | other hc => simpa using hc
  | miss hne htok | hit hne htok =>
    obtain ⟨c, tok, rfl⟩ := exists_cons_of_ne_nil hne
    exact absurd (htok c mem_cons_self) (by simp [hs c rfl])

theorem Redacts.tokens (h : Redacts patterns budget front s out hits) :
    tokens out = unhide patterns budget (Core.tokens s) := by
  induction h with
  | @stop budget _ s h =>
    rcases h with rfl | rfl
    · cases budget <;> rfl
    · rw [unhide_zero]
  | other hc _ ih => rw [tokens_other hc, tokens_other hc, ih]
  | miss hne htok hs hmiss h ih =>
    rw [any_glob_whole_iff] at hmiss
    rw [tokens_append hne htok (h.head hs), tokens_append hne htok hs, unhide, if_neg hmiss, ih]
  | hit hne htok hs hhit _ _ ih =>
    rw [any_glob_whole_iff] at hhit
    rw [tokens_stars, tokens_append hne htok hs, unhide, if_pos hhit, ih]

theorem Redacts.id (h : Redacts patterns budget front s out hits)
    (hnone : ∀ tok ∈ Core.tokens s, ¬ Hidden patterns tok) :
    out = s := by
  induction h with
  | stop => rfl
  | other hc _ ih =>
    rw [tokens_other hc] at hnone
    rw [ih hnone]
  | miss hne htok hs _ _ ih =>
    rw [tokens_append hne htok hs, forall_mem_cons] at hnone
    rw [ih hnone.2]
  | hit hne htok hs hhit =>
    rw [tokens_append hne htok hs, forall_mem_cons] at hnone
    exact absurd (any_glob_whole_iff.mp hhit) hnone.1

theorem Redacts.length_le (h : Redacts patterns budget front s out hits) : out.length ≤ s.length := by
  induction h with
  | stop => exact le_rfl
  | other _ _ ih => simpa using ih
  | miss _ _ _ _ _ ih => simpa using ih
  | hit _ _ _ _ hn _ ih =>
    rw [length_append, length_append, length_replicate]
    omega

theorem unhide_eq_filter (h : (ts.filter (Hidden patterns ·)).length ≤ budget) :
    unhide patterns budget ts = ts.filter (¬ Hidden patterns ·) := by
  induction ts generalizing budget with
  | nil => cases budget <;> rfl
  | cons t ts ih =>
    by_cases ht : Hidden patterns t
    · rw [filter_cons_of_pos (by simpa using ht), length_cons] at h
      obtain ⟨budget, rfl⟩ : ∃ n, budget = n + 1 := Nat.exists_eq_succ_of_ne_zero (by omega)
      rw [unhide, if_pos ht, filter_cons_of_neg (by simpa using ht), ih (by omega)]
    · rw [filter_cons_of_neg (by simpa using ht)] at h
      rw [filter_cons_of_pos (by simpa using ht)]
      cases budget with
      | zero => rw [← ih h, unhide_zero, unhide_zero]
      | succ budget => rw [unhide, if_neg ht, ih h]

theorem exists_hidden_unhide (h : budget < (ts.filter (Hidden patterns ·)).length) :
    ∃ t ∈ unhide patterns budget ts, Hidden patterns t := by
  induction ts generalizing budget with
  | nil => simp at h
  | cons t ts ih =>
    cases budget with
    | zero =>
      obtain ⟨u, hu⟩ := exists_mem_of_length_pos h
      rw [mem_filter] at hu
      exact ⟨u, by rw [unhide_zero]; exact hu.1, by simpa using hu.2⟩
    | succ budget =>
      by_cases ht : Hidden patterns t
      · rw [filter_cons_of_pos (by simpa using ht), length_cons] at h
        rw [unhide, if_pos ht]
        exact ih (by omega)
      · rw [filter_cons_of_neg (by simpa using ht)] at h
        obtain ⟨u, hu, hhid⟩ := ih h
        rw [unhide, if_neg ht]
        exact ⟨u, mem_cons_of_mem t hu, hhid⟩

/-- Redaction is complete: no token that a pattern matches is left, the others are there in order, the text
is not longer, and a second redaction changes nothing. -/
structure Complete (patterns : List Bytes) (buf : Bytes) : Prop where
  hides : ∀ tok ∈ tokens (retrace_redact_apply patterns buf), ¬ Hidden patterns tok
  keeps : tokens (retrace_redact_apply patterns buf) = (tokens buf).filter (¬ Hidden patterns ·)
  shrinks : (retrace_redact_apply patterns buf).length ≤ buf.length
  idempotent : retrace_redact_apply patterns (retrace_redact_apply patterns buf) =
    retrace_redact_apply patterns buf

theorem tokens_redact_apply :
    tokens (retrace_redact_apply patterns buf) = unhide patterns REDACT_REPLACEMENTS_MAX (tokens buf) := by
  rw [retrace_redact_apply]
  split_ifs with hnone
  · have hfilter : (tokens buf).filter (Hidden patterns ·) = [] := by
      rw [filter_eq_nil_iff]
      intro tok _
      simp [hnone, Hidden]
    rw [unhide_eq_filter (by rw [hfilter]; exact Nat.zero_le _)]
    refine (filter_eq_self.mpr fun tok _ => ?_).symm
    simp [hnone, Hidden]
  · exact (redacts_loop [] _ le_rfl).tokens

theorem not_complete_of_many (h : REDACT_REPLACEMENTS_MAX < ((tokens buf).filter (Hidden patterns ·)).length) :
    ∃ tok ∈ tokens (retrace_redact_apply patterns buf), Hidden patterns tok := by
  rw [tokens_redact_apply]
  exact exists_hidden_unhide h

/-- Redaction is complete exactly when no more than 64 tokens are to be hidden. -/
theorem redact_complete_iff (patterns : List Bytes) (buf : Bytes) :
    Complete patterns buf ↔ ((tokens buf).filter (Hidden patterns ·)).length ≤ REDACT_REPLACEMENTS_MAX := by
  constructor
  · intro h
    by_contra hmany
    obtain ⟨tok, htok, hhid⟩ := not_complete_of_many (not_le.mp hmany)
    exact h.hides tok htok hhid
  · intro h
    have hkeeps := tokens_redact_apply.trans (unhide_eq_filter h)
    have hhides : ∀ tok ∈ tokens (retrace_redact_apply patterns buf), ¬ Hidden patterns tok := by
      intro tok htok
      rw [hkeeps, mem_filter] at htok
      simpa using htok.2
    refine ⟨hhides, hkeeps, ?_, ?_⟩
    · rw [retrace_redact_apply]
      split_ifs
      · exact le_rfl
      · exact (redacts_loop [] _ le_rfl).length_le
    · obtain ⟨out, hout⟩ : ∃ out, retrace_redact_apply patterns buf = out := ⟨_, rfl⟩
      rw [hout] at hhides ⊢
      rw [retrace_redact_apply]
      split_ifs
      · rfl
      · exact (redacts_loop [] _ le_rfl).id hhides

/-- Of 65 tokens that the pattern `a` matches one stays. -/
theorem redact_leaves_one :
    ∃ tok ∈ tokens (retrace_redact_apply [bytes "a"] (replicate 65 (bytes "a ")).flatten),
      Hidden [bytes "a"] tok :=
  not_complete_of_many (by decide_cbv)

end Retrace.Core
