import Retrace.Core.Redact
import Retrace.Json.Text
import Retrace.Supervisor.EventText
import Retrace.CLib.Proofs.CStringProofs

/-!
# What redaction does to the text of a record

Redaction replaces tokens without looking at the grammar of the text. A token in a string literal becomes
stars there. A token outside of them is part of a number, of a literal or a colon, and a token right behind
a backslash is part of an escape: with stars in its place the text is no JSON any more.
-/

namespace Retrace.Core

open CLib JsonText List Option

variable {front rest t : Bytes} {st' : Lex} {budget : Nat} {s : Bytes} {st : Lex} {ls : List Lexeme}

/-- The tokens of `rest`, each with what stands in front of it, when `front` stands in front of `rest`. -/
def tokensFrom : Nat → Bytes → Bytes → List (Bytes × Bytes)
  | 0, _, _ => []
  | _, _, [] => []
  | fuel + 1, front, c :: rest =>
    if is_token_char c then
      let tok := (c :: rest).takeWhile is_token_char
      (front, tok) :: tokensFrom fuel (front ++ tok) ((c :: rest).dropWhile is_token_char)
    else tokensFrom fuel (front ++ [c]) rest

def hitsFrom (patterns : List Bytes) (budget fuel : Nat) (front rest : Bytes) : List (Bytes × Bytes) :=
  ((tokensFrom fuel front rest).filter fun p => patterns.any (glob_whole p.2)).take budget

def redacted_tokens (patterns : List Bytes) (text : Bytes) : List (Bytes × Bytes) :=
  hitsFrom patterns REDACT_REPLACEMENTS_MAX text.length [] text

def InString (front : Bytes) : Prop := (lexRun .out front).map Prod.fst = some .str

instance (front : Bytes) : Decidable (InString front) :=
  inferInstanceAs (Decidable ((lexRun .out front).map Prod.fst = some .str))

theorem redact_loop_done (fuel budget : Nat) (done rest : Bytes) :
    redact_loop patterns fuel budget done rest = done ++ redact_loop patterns fuel budget [] rest := by
  induction fuel generalizing budget done rest with
  | zero => cases rest <;> cases budget <;> simp [redact_loop]
  | succ fuel ih =>
    cases rest with
    | nil => simp [redact_loop]
    | cons c rest =>
      cases budget with
      | zero => simp [redact_loop]
      | succ budget =>
        simp only [redact_loop]
        split_ifs
        · rw [ih, ih _ ([] ++ _), append_assoc, nil_append]
        · rw [ih, ih _ ([] ++ _), append_assoc, nil_append]
        · rw [ih, ih _ ([] ++ _), append_assoc, nil_append]

theorem lexRun_trans (hs : lexRun st s = some (st', ls)) (ht : lexRun st' t = some (st'', ls')) :
    lexRun st (s ++ t) = some (st'', ls ++ ls') := by
  rw [lexRun_append, hs]
  simp [ht]

/-- Behind a piece both texts are lexed from the same place. -/
theorem lexRun_congr (h : ∀ st' ls, lexRun st s = some (st', ls) → lexRun st' t' = lexRun st' t) :
    lexRun st (s ++ t') = lexRun st (s ++ t) := by
  rw [lexRun_append, lexRun_append]
  cases hs : lexRun st s with
  | none => rfl
  | some q => simp only [bind_some, h _ _ hs]

theorem lexRun_behind (h : (lexRun st (s ++ t)).isSome = true) :
    ∃ st' ls, lexRun st s = some (st', ls) ∧ (lexRun st' t).isSome = true := by
  rw [lexRun_append] at h
  cases hs : lexRun st s with
  | none => simp [hs] at h
  | some q => exact ⟨q.1, q.2, rfl, by simpa [hs] using h⟩

theorem lexRun_str (hs : Plain s) : lexRun .str s = some (.str, []) := by
  induction s with
  | nil => rfl
  | cons c s ih =>
    have hc := hs c mem_cons_self
    simp only [plainChar, Bool.and_eq_true, decide_eq_true_eq] at hc
    obtain ⟨⟨hctl, hq⟩, hb⟩ := hc
    have hrest := ih fun x hx => hs x (mem_cons_of_mem c hx)
    simp [lexRun_cons, lexStep, hq, hb, UInt8.not_lt.mpr hctl, hrest]

theorem lexRun_out (hs : ∀ c ∈ s, c ≠ dquote) : lexRun .out s = some (.out, s.map some) := by
  induction s with
  | nil => rfl
  | cons c s ih =>
    have hrest := ih fun x hx => hs x (mem_cons_of_mem c hx)
    simp [lexRun_cons, lexStep, hs c mem_cons_self, hrest]

theorem plainChar_of_token (h : is_token_char c = true) : plainChar c = true := by
  have hall : ∀ n < 256, is_token_char (UInt8.ofNat n) = true → plainChar (UInt8.ofNat n) = true := by
    decide +kernel
  have := hall c.toNat c.toNat_lt
  rw [UInt8.ofNat_toNat] at this
  exact this h

theorem plain_token (hs : ∀ c ∈ s, is_token_char c = true) : Plain s :=
  fun c hc => plainChar_of_token (hs c hc)

theorem plain_stars : Plain (replicate n star) := by
  intro c hc
  rw [eq_of_mem_replicate hc]
  decide

def Broken (st : Lex) (text : Bytes) : Prop := ∀ st' ls, lexRun st text = some (st', ls) → some star ∈ ls

theorem broken_stars (hst : st ≠ .str) (hn : 0 < n) : Broken st (replicate n star ++ rest) := by
  intro st' ls h
  obtain ⟨m, rfl⟩ := Nat.exists_eq_succ_of_ne_zero hn.ne'
  rw [replicate_succ, cons_append, lexRun_cons] at h
  cases st with
  | str => exact absurd rfl hst
  | out =>
    simp only [lexStep, (by decide : star ≠ dquote), if_false, bind_some, map_eq_some_iff] at h
    obtain ⟨q, -, heq⟩ := h
    cases heq
    simp
  | esc => simp [lexStep, (by decide : star ∉ escapes), (by decide : star ≠ 117)] at h
  | uni k => simp [lexStep, (by decide : isxdigit star = false)] at h

theorem Broken.append (hs : lexRun st s = some (st', ls)) (h : Broken st' t) : Broken st (s ++ t) := by
  intro st2 ls2 hrun
  rw [lexRun_append, hs, bind_some, map_eq_some_iff] at hrun
  obtain ⟨q, hq, heq⟩ := hrun
  cases heq
  exact mem_append.mpr (.inr (h _ _ hq))

/-- The parts of a text in front of which `front` stands, as redaction goes through them: what it makes of them,
and the tokens it replaces. -/
inductive Redacts (patterns : List Bytes) : Nat → Bytes → Bytes → Bytes → List (Bytes × Bytes) → Prop where
  | stop {budget : Nat} {front s : Bytes} (h : s = [] ∨ budget = 0) : Redacts patterns budget front s s []
  | other {budget : Nat} {front s out : Bytes} {hits : List (Bytes × Bytes)} {c : UInt8}
      (hc : is_token_char c = false) (h : Redacts patterns (budget + 1) (front ++ [c]) s out hits) :
      Redacts patterns (budget + 1) front (c :: s) (c :: out) hits
  | miss {budget : Nat} {front tok s out : Bytes} {hits : List (Bytes × Bytes)} (hne : tok ≠ [])
      (htok : ∀ c ∈ tok, is_token_char c = true) (hs : ∀ c ∈ s.head?, is_token_char c = false)
      (hmiss : ¬ patterns.any (glob_whole tok) = true)
      (h : Redacts patterns (budget + 1) (front ++ tok) s out hits) :
      Redacts patterns (budget + 1) front (tok ++ s) (tok ++ out) hits
  | hit {budget n : Nat} {front tok s out : Bytes} {hits : List (Bytes × Bytes)} (hne : tok ≠ [])
      (htok : ∀ c ∈ tok, is_token_char c = true) (hs : ∀ c ∈ s.head?, is_token_char c = false)
      (hhit : patterns.any (glob_whole tok) = true) (hn : n = min tok.length 3)
      (h : Redacts patterns budget (front ++ tok) s out hits) :
      Redacts patterns (budget + 1) front (tok ++ s) (replicate n star ++ out) ((front, tok) :: hits)

theorem dropWhile_token_length (hc : is_token_char c = true) (rest : Bytes) :
    ((c :: rest).dropWhile is_token_char).length ≤ rest.length := by
  rw [dropWhile_cons, if_pos hc]
  exact (dropWhile_suffix _).length_le

theorem dropWhile_token_head : ∀ c ∈ (s.dropWhile is_token_char).head?, is_token_char c = false := by
  intro c hc
  have hnot := head?_dropWhile_not is_token_char s
  rw [mem_def.mp hc] at hnot
  simpa using hnot

/-- The loop redacts what is left of the text, and replaces the tokens that `hitsFrom` finds. -/
theorem redacts_loop (front : Bytes) (fuel : Nat) (hfuel : s.length ≤ fuel) :
    Redacts patterns budget front s (redact_loop patterns fuel budget [] s)
      (hitsFrom patterns budget fuel front s) := by
  induction fuel generalizing budget front s with
  | zero =>
    obtain rfl : s = [] := length_eq_zero_iff.mp (by omega)
    simpa [redact_loop, hitsFrom, tokensFrom] using .stop (.inl rfl)
  | succ fuel ih =>
    cases s with
    | nil => simpa [redact_loop, hitsFrom, tokensFrom] using .stop (.inl rfl)
    | cons c s =>
      cases budget with
      | zero => simpa [redact_loop, hitsFrom] using .stop (.inr rfl)
      | succ budget =>
        have hsplit := takeWhile_append_dropWhile (p := is_token_char) (l := c :: s)
        rw [redact_loop, hitsFrom, tokensFrom]
        by_cases hc : is_token_char c = true
        · have hrest := fun b tok => @ih b _ (front ++ tok)
            ((dropWhile_token_length hc s).trans (by simpa using hfuel))
          simp only [if_pos hc]
          split_ifs with hhit
          · rw [filter_cons, if_pos hhit, redact_loop_done]
            have h := Redacts.hit (by simp [hc])
                (fun _ => mem_takeWhile_imp) dropWhile_token_head hhit rfl (hrest budget _)
            rwa [hsplit] at h
          · rw [filter_cons, if_neg hhit, redact_loop_done]
            have h := Redacts.miss (by simp [hc])
                (fun _ => mem_takeWhile_imp) dropWhile_token_head hhit (hrest (budget + 1) _)
            rwa [hsplit] at h
        · simp only [if_neg hc]
          rw [redact_loop_done]
          exact .other (by simpa using hc) (ih _ (by simpa using hfuel))

theorem Redacts.lex (h : Redacts patterns budget front s out hits) (hfront : lexRun .out front = some (st, e))
    (hgood : ∀ p ∈ hits, InString p.1) : lexRun st out = lexRun st s := by
  induction h generalizing st e with
  | stop => rfl
  | @other _ _ s out _ c _ _ ih =>
    exact lexRun_congr (s := [c]) fun _ _ hc => ih (lexRun_trans hfront hc) hgood
  | miss _ _ _ _ _ ih => exact lexRun_congr fun _ _ htok => ih (lexRun_trans hfront htok) hgood
  | hit _ htok _ _ _ _ ih =>
    obtain ⟨hin, hgood⟩ := forall_mem_cons.mp hgood
    obtain rfl : st = .str := by simpa [InString, hfront] using hin
    have hrun := lexRun_str (plain_token htok)
    rw [lexRun_append, lexRun_append, lexRun_str plain_stars, hrun, bind_some, bind_some,
      ih (lexRun_trans hfront hrun) hgood]

theorem Redacts.broken (h : Redacts patterns budget front s out hits) (hfront : lexRun .out front = some (st, e))
    (hlex : (lexRun st s).isSome = true) (hbad : ∃ p ∈ hits, ¬ InString p.1) : Broken st out := by
  induction h generalizing st e with
  | stop =>
    obtain ⟨p, hp, -⟩ := hbad
    cases hp
  | @other _ _ s out _ c _ _ ih =>
    obtain ⟨st', e', hc, hrest⟩ := lexRun_behind (s := [c]) hlex
    exact (ih (lexRun_trans hfront hc) hrest hbad).append hc
  | miss _ _ _ _ _ ih =>
    obtain ⟨st', e', htok, hrest⟩ := lexRun_behind hlex
    exact (ih (lexRun_trans hfront htok) hrest hbad).append htok
  | hit hne htok _ _ hn _ ih =>
    by_cases hst : st = .str
    · subst hst
      have hrun := lexRun_str (plain_token htok)
      obtain ⟨st', e', htok', hrest⟩ := lexRun_behind hlex
      rw [hrun] at htok'
      cases htok'
      refine (ih (lexRun_trans hfront hrun) hrest ?_).append (lexRun_str plain_stars)
      obtain ⟨p, hp, hnot⟩ := hbad
      rcases mem_cons.mp hp with rfl | hp
      · exact absurd (by simp [InString, hfront]) hnot
      · exact ⟨p, hp, hnot⟩
    · have := length_pos_iff.mpr hne
      exact broken_stars hst (by omega)

theorem isNumber_fmtInt (n : Int) : IsNumber (fmtInt n) := by
  have hhead : (fmtNat n.natAbs).head? = some 48 → fmtNat n.natAbs = [48] := by
    intro h
    by_cases hn : n.natAbs = 0
    · rw [hn]
      rfl
    · exact absurd h (head_fmtNat_ne hn)
  have hdigits : JsonText.Digits (fmtNat n.natAbs) ∧
      ((fmtNat n.natAbs).head? = some 48 → fmtNat n.natAbs = [48]) :=
    ⟨⟨fmtNat_ne_nil _, fun c hc => isdigit_of_mem_fmtNat hc⟩, hhead⟩
  rw [fmtInt]
  split_ifs
  · exact ⟨bytes "-", _, [], [], by simp; rfl, .inr rfl, hdigits, .inl rfl, .inl rfl⟩
  · exact ⟨[], _, [], [], by simp, .inl rfl, hdigits, .inl rfl, .inl rfl⟩

theorem lexRun_fmtInt (n : Int) : lexRun .out (fmtInt n) = some (.out, (fmtInt n).map some) := by
  refine lexRun_out fun c hc => ?_
  have := fmtInt_plain n c hc
  simp only [plainChar, Bool.and_eq_true, decide_eq_true_eq] at this
  exact this.1.2

theorem derives_member (h : Derives .value [x] ls) : Derives .members [x] (none :: some colon :: ls) := by
  have hblank : Blank [] := by simp [Blank]
  simpa using Derives.member hblank hblank (Derives.item hblank hblank h)

theorem attrs_json (x : Bytes × Bytes) (kv : List (Bytes × Bytes)) (hkv : ∀ y ∈ x :: kv, Plain y.1 ∧ Plain y.2) :
    ∃ ls, lexRun .out ([comma].intercalate ((x :: kv).map fun x =>
        [dquote] ++ x.1 ++ [dquote, colon, dquote] ++ x.2 ++ [dquote])) = some (.out, ls) ∧
      Derives .members ((x :: kv).map fun _ => .str) ls := by
  have hone : ∀ y : Bytes × Bytes, Plain y.1 ∧ Plain y.2 →
      lexRun .out ([dquote] ++ y.1 ++ [dquote, colon, dquote] ++ y.2 ++ [dquote]) =
        some (.out, [none, some colon, none]) := by
    intro y hy
    have hopen : lexRun .out [dquote] = some (.str, [none]) := by decide
    have hmid : lexRun .str [dquote, colon, dquote] = some (.str, [some colon, none]) := by decide
    have hclose : lexRun .str [dquote] = some (.out, []) := by decide
    exact lexRun_trans (lexRun_trans (lexRun_trans (lexRun_trans hopen (lexRun_str hy.1)) hmid) (lexRun_str hy.2))
      hclose
  induction kv generalizing x with
  | nil => exact ⟨_, by simpa [intercalate] using hone x (hkv x (by simp)), derives_member .str⟩
  | cons y kv ih =>
    obtain ⟨ls, hls, hderives⟩ := ih y fun z hz => hkv z (mem_cons_of_mem x hz)
    refine ⟨[none, some colon, none] ++ some comma :: ls, ?_, .members (derives_member .str) hderives⟩
    have hcomma : lexRun .out [comma] = some (.out, [some comma]) := by decide
    have := lexRun_trans (hone x (hkv x (by simp))) (lexRun_trans hcomma hls)
    simpa [intercalate] using this

theorem event_json (seq : UInt64) (now : Int)
    (hid : Plain agent_id) (hname : Plain name) (hkv : ∀ x ∈ kv, Plain x.1 ∧ Plain x.2) :
    IsJson (.obj [.str, .scalar (fmtInt seq.toNat), .scalar (fmtInt now), .str, .obj (kv.map fun _ => .str)])
      (Supervisor.event_text agent_id seq now name kv) := by
  have hblank : Blank [] := by simp [Blank]
  have hattrs : ∃ ls, lexRun .out ([comma].intercalate (kv.map fun x =>
        [dquote] ++ x.1 ++ [dquote, colon, dquote] ++ x.2 ++ [dquote])) = some (.out, ls) ∧
      Derives .value [.obj (kv.map fun _ => .str)] (some lbrace :: (ls ++ [some rbrace])) := by
    cases kv with
    | nil => exact ⟨[], rfl, .obj_nil hblank⟩
    | cons x kv =>
      obtain ⟨ls, hls, hderives⟩ := attrs_json x kv hkv
      exact ⟨ls, hls, .obj hderives⟩
  obtain ⟨ls, hls, hobj⟩ := hattrs
  have hseq : fmtNat seq.toNat = fmtInt seq.toNat := by simp [fmtInt]
  -- The texts between the parts of the event.
  have hagent : lexRun .out (bytes "\x7b\"agent_id\":\"") =
      some (.str, [some lbrace, none, some colon, none]) := by
    decide
  have hnumber : lexRun .str (bytes "\",\"seq\":") = some (.out, [some comma, none, some colon]) := by decide
  have htime : lexRun .out (bytes ",\"ts\":") = some (.out, [some comma, none, some colon]) := by decide
  have hcalled : lexRun .out (bytes ",\"name\":\"") =
      some (.str, [some comma, none, some colon, none]) := by decide
  have hopen : lexRun .str (bytes "\",\"attrs\":\x7b") =
      some (.out, [some comma, none, some colon, some lbrace]) := by
    decide
  have hclose : lexRun .out (bytes "\x7d\x7d") = some (.out, [some rbrace, some rbrace]) := by decide
  have hhead := lexRun_trans (lexRun_trans (lexRun_trans (lexRun_trans (lexRun_trans (lexRun_trans hagent
    (lexRun_str hid)) hnumber) (lexRun_fmtInt seq.toNat)) htime) (lexRun_fmtInt now)) hcalled
  have hrun := lexRun_trans (lexRun_trans (lexRun_trans (lexRun_trans hhead (lexRun_str hname)) hopen) hls) hclose
  have hmembers := Derives.members (derives_member .str) (.members
    (derives_member (.scalar (.inr (.inr (.inr (isNumber_fmtInt seq.toNat)))))) (.members
    (derives_member (.scalar (.inr (.inr (.inr (isNumber_fmtInt now)))))) (.members (derives_member .str)
    (derives_member hobj))))
  refine ⟨_, ?_, Derives.item hblank hblank (.obj hmembers)⟩
  rw [Supervisor.event_text, Supervisor.event_head, hseq, hrun]
  simp

/-- A record keeps its shape exactly when every token that is replaced stands in a string literal and not
right behind a backslash. -/
theorem redact_keeps_shape_iff (patterns : List Bytes) (text : Bytes) (x : Shape) (h : IsJson x text) :
    IsJson x (retrace_redact_apply patterns text) ↔ ∀ p ∈ redacted_tokens patterns text, InString p.1 := by
  obtain ⟨ls, hlex, hderives⟩ := h
  have hstart : lexRun .out [] = some (.out, []) := rfl
  by_cases hnone : patterns = []
  · have hhits : redacted_tokens patterns text = [] := by
      rw [redacted_tokens, hitsFrom, hnone]
      simp
    rw [retrace_redact_apply, if_pos hnone, hhits]
    exact iff_of_true ⟨ls, hlex, hderives⟩ (by simp)
  rw [retrace_redact_apply, if_neg hnone]
  constructor
  · rintro ⟨ls', hlex', hderives'⟩
    by_contra hbad
    push Not at hbad
    have hbroken := (redacts_loop [] text.length (le_refl _)).broken hstart (by rw [hlex]; rfl) hbad
    exact absurd (hderives'.outside (hbroken _ _ hlex')) (by decide)
  · intro hgood
    exact ⟨ls, ((redacts_loop [] text.length (le_refl _)).lex hstart hgood).trans hlex, hderives⟩

def open_event : Bytes :=
  Supervisor.event_text (bytes "pending") 1 0 (bytes "open") [(bytes "path", bytes "/tmp/secret")]

/-- The pattern `secret` hides the word in the attribute, and the event stays a record. -/
theorem redact_keeps_open_event :
    IsJson (.obj [.str, .scalar (fmtInt 1), .scalar (fmtInt 0), .str, .obj [.str]])
      (retrace_redact_apply [bytes "secret"] open_event) :=
  (redact_keeps_shape_iff _ _ _ (event_json 1 0 (by decide) (by decide) (by decide))).mpr (by decide +kernel)

/-- The pattern `:1` hides the number of the agent's first event with its colon, and no JSON is left. -/
theorem redact_breaks_open_event :
    Supervisor.retrace_agent_format_event_stack Supervisor.AGENT_EVENT_INLINE (bytes "pending") 1 0 (bytes "open")
        [(bytes "path", bytes "/tmp/secret")] = some open_event ∧
      IsJson (.obj [.str, .scalar (fmtInt 1), .scalar (fmtInt 0), .str, .obj [.str]]) open_event ∧
      ∀ x, ¬ IsJson x (retrace_redact_apply [bytes ":1"] open_event) := by
  refine ⟨by decide, event_json 1 0 (by decide) (by decide) (by decide), ?_⟩
  rintro x ⟨ls, hlex, hderives⟩
  have hstar : ∀ q ∈ lexRun .out (retrace_redact_apply [bytes ":1"] open_event), some star ∈ q.2 := by
    decide +kernel
  exact absurd (hderives.outside (hstar _ hlex)) (by decide)

end Retrace.Core
