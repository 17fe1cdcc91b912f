import Retrace.Supervisor.Producers
import Retrace.Supervisor.Proofs.QueueProofs

/-!
# Sequence numbers and forks
-/

namespace Retrace.Supervisor.Queue

open CLib Runs List Option

variable {r r' : AgentRing} {kv : List (Bytes × Bytes)} {i : Nat}
  {g : AgentState} {cap start t : Nat} {p : Proc} {s : Threads}

theorem app_str_eq {s : Bytes} (hplain : Plain s) (hfit : out.length + s.length < cap) :
    app_str cap out s = some (out ++ s) := by
  induction s generalizing out with
  | nil => rw [app_str, append_nil]
  | cons c s ih =>
    have hc := hplain c (by simp)
    simp only [plainChar, Bool.and_eq_true, decide_eq_true_eq] at hc
    rw [length_cons] at hfit
    rw [app_str, if_neg (by simp [hc.1.2, hc.2, hc.1.1]), if_neg (by omega),
      ih (fun c hc => hplain c (by simp [hc])) (by rw [length_append, length_singleton]; omega),
      append_assoc, singleton_append]

theorem app_lit_eq (h : out.length + need < cap) : app_lit cap out need lit = some (out ++ lit) := by
  rw [app_lit, if_neg (not_le.mpr h)]

def attrText (x : Bytes × Bytes) : Bytes := [dquote] ++ x.1 ++ [dquote, colon, dquote] ++ x.2 ++ [dquote]

def attrsText : Nat → List (Bytes × Bytes) → Bytes
  | _, [] => []
  | i, x :: kv => (if 0 < i then [comma] else []) ++ attrText x ++ attrsText (i + 1) kv

theorem attrsText_intercalate : attrsText 0 kv = [comma].intercalate (kv.map attrText) := by
  have hrest : ∀ (kv : List (Bytes × Bytes)) x i, attrText x ++ attrsText (i + 1) kv =
      [comma].intercalate ((x :: kv).map attrText) := by
    intro kv
    induction kv with
    | nil => simp [attrsText]
    | cons y kv ih =>
      intro x i
      rw [attrsText, if_pos (Nat.succ_pos i), append_assoc, ih y (i + 1)]
      simp [intercalate_cons_cons]
  cases kv with
  | nil => simp [attrsText]
  | cons x kv => rw [attrsText, if_neg (lt_irrefl 0), nil_append, hrest kv x 0]

theorem app_attrs_eq (hplain : ∀ x ∈ kv, Plain x.1 ∧ Plain x.2)
    (hfit : out.length + (attrsText i kv).length + 3 < cap) :
    app_attrs cap i out kv = some (out ++ attrsText i kv) := by
  induction kv generalizing i out with
  | nil => rw [app_attrs, attrsText, append_nil]
  | cons x kv ih =>
    obtain ⟨k, v⟩ := x
    obtain ⟨hk, hv⟩ := hplain (k, v) (by simp)
    rw [attrsText, attrText] at hfit ⊢
    simp only [length_append, length_cons, length_nil] at hfit
    have hcomma : app_comma cap i out = some (out ++ if 0 < i then [comma] else []) := by
      unfold app_comma
      split_ifs with hi
      · exact app_lit_eq (by omega)
      · rw [append_nil]
    rw [app_attrs, hcomma]
    generalize hsep : (if 0 < i then [comma] else []) = sep at hfit ⊢
    simp only [bind_eq_bind, bind_some]
    rw [app_lit_eq (by simp only [length_append]; omega), bind_some,
      app_str_eq hk (by simp only [length_append, length_singleton]; omega), bind_some,
      app_lit_eq (by simp only [length_append, length_singleton]; omega), bind_some,
      app_str_eq hv (by simp only [length_append, length_cons, length_nil]; omega), bind_some,
      app_lit_eq (by simp only [length_append, length_cons, length_nil]; omega), bind_some,
      ih (fun x hx => hplain x (by simp [hx])) (by simp only [length_append, length_cons, length_nil]; omega)]
    simp only [append_assoc]

theorem format_event_stack_eq {name : Bytes} (hname : Plain name) (hkv : ∀ x ∈ kv, Plain x.1 ∧ Plain x.2)
    (hfit : (event_text agent_id seq now name kv).length + 1 < cap) :
    retrace_agent_format_event_stack cap agent_id seq now name kv =
      some (event_text agent_id seq now name kv) := by
  have htext : event_text agent_id seq now name kv =
      event_head agent_id seq now ++ name ++ bytes "\",\"attrs\":\x7b" ++ attrsText 0 kv ++ bytes "\x7d\x7d" := by
    rw [attrsText_intercalate]
    rfl
  have hopen : (bytes "\",\"attrs\":\x7b").length = 11 := rfl
  have hclose : (bytes "\x7d\x7d").length = 2 := rfl
  rw [htext] at hfit ⊢
  simp only [length_append, hopen, hclose] at hfit
  unfold retrace_agent_format_event_stack
  rw [app_lit_eq (by simp only [length_nil]; omega)]
  simp only [bind_eq_bind, bind_some, nil_append]
  rw [app_str_eq hname (by omega), bind_some, app_lit_eq (by simp only [length_append]; omega), bind_some,
    app_attrs_eq hkv (by simp only [length_append, hopen]; omega), bind_some,
    app_lit_eq (by simp only [length_append, hopen]; omega)]

def PushedOrCounted (r r' : AgentRing) : Prop :=
  (r'.ring.count = r.ring.count + 1 ∧ r'.dropped = r.dropped) ∨
    (r'.ring.count = r.ring.count ∧ r'.dropped = r.dropped + 1)

theorem queue_push_ring (g : AgentState) (heap : Bool) (text : Bytes) (ok : Bool) :
    ∃ rc r, queue_push g heap text ok = (rc, { g with ring := r }) ∧
      ((rc = 0 ∧ r.ring.count = g.ring.ring.count + 1 ∧ r.dropped = g.ring.dropped) ∨
        (rc = -1 ∧ r.ring.count = g.ring.ring.count ∧ r.dropped = g.ring.dropped + 1)) := by
  obtain ⟨rc, r, heq, ⟨hrc, htexts, hdrop⟩ | ⟨hrc, htexts, hdrop⟩⟩ := queue_push_cases g heap text ok
  · refine ⟨rc, r, heq, .inl ⟨hrc, ?_, hdrop⟩⟩
    rw [← texts_length, htexts, length_append, texts_length, length_singleton]
  · refine ⟨rc, r, heq, .inr ⟨hrc, ?_, hdrop⟩⟩
    rw [← texts_length, htexts, texts_length]

theorem marksAfter_push (hmarks : marks.length = r.ring.count) (mark : α)
    (h : r'.ring.count = r.ring.count + 1) : marksAfter marks mark r' = marks ++ [mark] := by
  rw [marksAfter, h, ← hmarks]
  exact take_of_length_le (by rw [length_append, length_singleton])

theorem marksAfter_same (hmarks : marks.length = r.ring.count) (mark : α)
    (h : r'.ring.count = r.ring.count) : marksAfter marks mark r' = marks := by
  rw [marksAfter, h, ← hmarks, take_left]

theorem report_drops_cases : (report_drops now ok g).seq = g.seq ∧
      ((report_drops now ok g).ring = g.ring ∨ PushedOrCounted g.ring (report_drops now ok g).ring) := by
  cases hmarker : drop_marker now g with
  | none =>
    have hsame : report_drops now ok g = g := by simp [report_drops, hmarker]
    rw [hsame]
    exact ⟨rfl, .inl rfl⟩
  | some marker =>
    obtain ⟨rc, r, heq, hcases⟩ := queue_push_ring g false marker ok
    have hring : (report_drops now ok g).ring = r := by rw [report_drops_ring hmarker, heq]
    have hseq : (report_drops now ok g).seq = g.seq := by
      simp only [report_drops, hmarker, heq]
      split_ifs <;> rfl
    rw [hring]
    refine ⟨hseq, .inr ?_⟩
    rcases hcases with ⟨-, h⟩ | ⟨-, h⟩
    · exact .inl h
    · exact .inr h

theorem drain_turn_ring : (drain_turn g ret).2.seq = g.seq ∧ (drain_turn g ret).2.ring.dropped = g.ring.dropped ∧
      (drain_turn g ret).2.ring.ring.count ≤ g.ring.ring.count := by
  obtain ⟨-, heq⟩ | ⟨item, -, ⟨-, heq⟩ | ⟨-, heq⟩⟩ := drain_turn_cases g ret
  · rw [heq]
    exact ⟨rfl, rfl, le_refl _⟩
  · rw [heq]
    exact ⟨rfl, rfl, le_refl _⟩
  · rw [heq]
    refine ⟨rfl, rfl, ?_⟩
    show (g.ring.ring.pop Slot.release).count ≤ g.ring.ring.count
    rw [Circular.Buffer.count_pop]
    exact Nat.sub_le _ _

theorem adopt_spawn_ring (pid : Int) (ok : Bool) (g : AgentState) :
    (spawn_agent_thread pid ok (fork_adopt pid g)).2.seq = g.seq ∧
      (spawn_agent_thread pid ok (fork_adopt pid g)).2.ring.dropped = g.ring.dropped ∧
      ((spawn_agent_thread pid ok (fork_adopt pid g)).2.ring.ring.count = 0 ∨
        (spawn_agent_thread pid ok (fork_adopt pid g)).2.ring.ring.count = g.ring.ring.count) ∧
      ((g.thread_spawned = true → g.spawner_pid = pid) →
        (spawn_agent_thread pid ok (fork_adopt pid g)).2.ring = g.ring) := by
  have hspawn : ∀ g', (spawn_agent_thread pid ok g').2.seq = g'.seq ∧
      (spawn_agent_thread pid ok g').2.ring = g'.ring := by
    intro g'
    unfold spawn_agent_thread
    split_ifs <;> exact ⟨rfl, rfl⟩
  rw [(hspawn _).1, (hspawn _).2]
  unfold fork_adopt
  split_ifs with hforeign
  · exact ⟨rfl, rfl, .inl rfl, fun hown => absurd (hown hforeign.1) hforeign.2⟩
  · exact ⟨rfl, rfl, .inr rfl, fun _ => rfl⟩

/-- The numbers in the log follow one another, and no thread has taken one but the one that is about to
put its event into the queue. -/
structure Serial (start : Nat) (s : Threads) : Prop where
  marks : s.queue.length = s.g.ring.ring.count
  suffix : s.queue.filterMap id <:+ accepted s.log
  numbers : ∀ i x, s.log[i]? = some x → x.1.toNat = start + 1 + i
  flight : ((∀ t, (s.threads t).inFlight = false) ∧ s.g.seq.toNat = start + s.log.length) ∨
    ∃ t, (∀ u ≠ t, (s.threads u).inFlight = false) ∧ s.g.seq.toNat = start + s.log.length + 1 ∧
      ((∃ name kv, s.threads t = .numbered name kv s.g.seq) ∨
        ∃ heap text, s.threads t = .formatted ⟨s.g.seq, heap, text⟩)

theorem Serial.flying (h : Serial start s) (ht : (s.threads t).inFlight = true) :
    (∀ u ≠ t, (s.threads u).inFlight = false) ∧ s.g.seq.toNat = start + s.log.length + 1 ∧
      ((∃ name kv, s.threads t = .numbered name kv s.g.seq) ∨
        ∃ heap text, s.threads t = .formatted ⟨s.g.seq, heap, text⟩) := by
  rcases h.flight with ⟨hidle, -⟩ | ⟨u, hothers, hseq, hat⟩
  · rw [hidle t] at ht
    cases ht
  · by_cases htu : t = u
    · subst htu
      exact ⟨hothers, hseq, hat⟩
    · rw [hothers t htu] at ht
      cases ht

theorem Serial.queue (h : Serial start s)
    (hseq : g.seq = s.g.seq) (hmarks : q.length = g.ring.ring.count)
    (hsuffix : q.filterMap id <:+ s.queue.filterMap id) : Serial start { s with g := g, queue := q } where
  marks := hmarks
  suffix := hsuffix.trans h.suffix
  numbers := h.numbers
  flight := by
    simp only [hseq]
    exact h.flight

theorem Serial.landed (h : Serial start s)
    (ht : (s.threads t).inFlight = false) (hl : l.inFlight = false) :
    Serial start { s with threads := Function.update s.threads t l } where
  marks := h.marks
  suffix := h.suffix
  numbers := h.numbers
  flight := by
    have hother : ∀ u, (s.threads u).inFlight = false → (Function.update s.threads t l u).inFlight = false := by
      intro u hu
      by_cases htu : u = t
      · rw [htu, Function.update_self]
        exact hl
      · rw [Function.update_of_ne htu]
        exact hu
    rcases h.flight with ⟨hidle, hseq⟩ | ⟨u, hothers, hseq, hat⟩
    · exact .inl ⟨fun u => hother u (hidle u), hseq⟩
    · have hne : u ≠ t := by
        rintro rfl
        rcases hat with ⟨name, kv, heq⟩ | ⟨heap, text, heq⟩ <;> rw [heq] at ht <;> cases ht
      refine .inr ⟨u, fun v hv => hother v (hothers v hv), hseq, ?_⟩
      simpa only [Function.update_of_ne hne] using hat

theorem Serial.number (h : Serial start s) (hok : OneByOne s (.number t name kv)) :
    Serial start (s.step (.number t name kv)) := by
  obtain ⟨hidle, hwrap⟩ := hok
  have hseq : s.g.seq.toNat = start + s.log.length := by
    rcases h.flight with ⟨-, hseq⟩ | ⟨u, -, -, hat⟩
    · exact hseq
    · have := hidle u
      rcases hat with ⟨name, kv, heq⟩ | ⟨heap, text, heq⟩ <;> rw [heq] at this <;> cases this
  have hnext : (s.g.seq + 1).toNat = start + s.log.length + 1 := by
    rw [UInt64.toNat_add, ← hseq]
    exact Nat.mod_eq_of_lt hwrap
  cases hl : s.threads t with
  | idle =>
    simp only [Threads.step, hl, next_seq]
    split_ifs with harmed
    · refine ⟨h.marks, h.suffix, h.numbers, .inr ⟨t, fun u hu => ?_, hnext, .inl ⟨name, kv, ?_⟩⟩⟩
      · show (Function.update s.threads t _ u).inFlight = false
        rw [Function.update_of_ne hu]
        exact hidle u
      · exact Function.update_self _ _ _
    · exact h
  | numbered => simpa only [Threads.step, hl] using h
  | formatted => simpa only [Threads.step, hl] using h
  | queued => simpa only [Threads.step, hl] using h

theorem Serial.format (h : Serial start s)
    (hok : OneByOne s (.format t env)) : Serial start (s.step (.format t env)) := by
  cases hl : s.threads t with
  | idle => simpa only [Threads.step, hl] using h
  | formatted => simpa only [Threads.step, hl] using h
  | queued => simpa only [Threads.step, hl] using h
  | numbered name kv seq =>
    obtain ⟨hothers, hseq, ⟨name', kv', hat⟩ | ⟨heap, text, hat⟩⟩ := h.flying (t := t) (by rw [hl]; rfl)
    · rw [hl] at hat
      cases hat
      unfold OneByOne at hok
      simp only [hl] at hok
      obtain ⟨hname, hkv, hfit⟩ := hok
      simp only [Threads.step, hl, format_event, format_event_stack_eq hname hkv hfit]
      refine ⟨h.marks, h.suffix, h.numbers, .inr ⟨t, fun u hu => ?_, hseq, .inr
        ⟨false, Core.retrace_redact_apply env.patterns (event_text s.g.agent_id s.g.seq env.now name kv), ?_⟩⟩⟩
      · show (Function.update s.threads t _ u).inFlight = false
        rw [Function.update_of_ne hu]
        exact hothers u hu
      · exact Function.update_self _ _ _
    · rw [hl] at hat
      cases hat

theorem accepted_append : accepted (log ++ [(seq, ok)]) = accepted log ++ if ok then [seq] else [] := by
  cases ok <;> simp [accepted]

theorem Serial.push (h : Serial start s) (t : Nat) (env : EmitEnv) : Serial start (s.step (.push t env)) := by
  cases hl : s.threads t with
  | idle => simpa only [Threads.step, hl] using h
  | numbered => simpa only [Threads.step, hl] using h
  | queued => simpa only [Threads.step, hl] using h
  | formatted item =>
    obtain ⟨hothers, hseq, ⟨name, kv, hat⟩ | ⟨heap, text, hat⟩⟩ := h.flying (t := t) (by rw [hl]; rfl)
    · rw [hl] at hat
      cases hat
    rw [hl] at hat
    cases hat
    obtain ⟨rc, r, heq, hcases⟩ := queue_push_ring s.g heap text env.copy_ok
    have hnumbers : ∀ ok i x, (s.log ++ [(s.g.seq, ok)])[i]? = some x → x.1.toNat = start + 1 + i := by
      intro ok i x hx
      rcases Nat.lt_trichotomy i s.log.length with hlt | rfl | hgt
      · rw [getElem?_append_left hlt] at hx
        exact h.numbers i x hx
      · rw [getElem?_concat_length] at hx
        cases hx
        show s.g.seq.toNat = start + 1 + s.log.length
        omega
      · rw [getElem?_eq_none (by rw [length_append, length_singleton]; omega)] at hx
        cases hx
    have hflight : ∀ u, (Function.update s.threads t .queued u).inFlight = false := by
      intro u
      by_cases hu : u = t
      · rw [hu, Function.update_self]
        rfl
      · rw [Function.update_of_ne hu]
        exact hothers u hu
    have hlength : ∀ ok, s.g.seq.toNat = start + (s.log ++ [(s.g.seq, ok)]).length := by
      intro ok
      rw [hseq, length_append, length_singleton]
      omega
    simp only [Threads.step, hl, heq]
    rcases hcases with ⟨rfl, hcount, -⟩ | ⟨rfl, hcount, -⟩
    · have hmarks := marksAfter_push h.marks (some s.g.seq) hcount
      refine ⟨?_, ?_, hnumbers true, .inl ⟨hflight, hlength true⟩⟩
      · show (marksAfter s.queue (some s.g.seq) r).length = r.ring.count
        rw [hmarks, length_append, h.marks, hcount, length_singleton]
      · show (marksAfter s.queue (some s.g.seq) r).filterMap id <:+ accepted (s.log ++ [(s.g.seq, true)])
        rw [hmarks, accepted_append, filterMap_append]
        obtain ⟨front, hfront⟩ := h.suffix
        exact ⟨front, by rw [← hfront, append_assoc]; rfl⟩
    · have hmarks := marksAfter_same h.marks (some s.g.seq) hcount
      refine ⟨?_, ?_, hnumbers false, .inl ⟨hflight, hlength false⟩⟩
      · show (marksAfter s.queue (some s.g.seq) r).length = r.ring.count
        rw [hmarks, h.marks, hcount]
      · show (marksAfter s.queue (some s.g.seq) r).filterMap id <:+ accepted (s.log ++ [(s.g.seq, false)])
        rw [hmarks, accepted_append]
        simpa using h.suffix

/-- Calls that do not overlap keep the numbers in the order of the log. -/
theorem Serial.step (h : Serial start s) (hok : OneByOne s a) : Serial start (s.step a) := by
  cases a with
  | number t name kv => exact h.number hok
  | format t env => exact h.format hok
  | push t env => exact h.push t env
  | finish t env =>
    cases hl : s.threads t with
    | idle => simpa only [Threads.step, hl] using h
    | numbered => simpa only [Threads.step, hl] using h
    | formatted => simpa only [Threads.step, hl] using h
    | queued =>
      simp only [Threads.step, hl]
      obtain ⟨hseq, -, hcount, -⟩ := adopt_spawn_ring s.pid env.create_ok s.g
      refine (h.queue (q := s.queue.take _) hseq ?_ ?_).landed (t := t) (l := .idle) (by rw [hl]; rfl) rfl
      · rcases hcount with hzero | hsame
        · rw [hzero, take_zero, length_nil]
        · rw [hsame, ← h.marks, take_length]
      · rcases hcount with hzero | hsame
        · rw [hzero, take_zero]
          exact nil_suffix
        · rw [hsame, ← h.marks, take_length]
  | send ret =>
    obtain ⟨hseq, -, hcount⟩ := drain_turn_ring
    refine h.queue hseq ?_ ?_
    · show (s.queue.drop (s.g.ring.ring.count - (drain_turn s.g ret).2.ring.ring.count)).length =
        (drain_turn s.g ret).2.ring.ring.count
      rw [length_drop, h.marks]
      omega
    · exact (drop_suffix _ _).filterMap _
  | report now ok =>
    obtain ⟨hseq, hring⟩ := report_drops_cases
    rcases hring with hsame | ⟨hcount, -⟩ | ⟨hcount, -⟩
    · refine h.queue hseq ?_ ?_ <;> rw [marksAfter_same h.marks none (by rw [hsame])]
      rw [h.marks, hsame]
    · refine h.queue hseq ?_ ?_ <;> rw [marksAfter_push h.marks none hcount]
      · rw [length_append, h.marks, hcount, length_singleton]
      · simp
    · refine h.queue hseq ?_ ?_ <;> rw [marksAfter_same h.marks none hcount]
      rw [h.marks, hcount]

theorem Serial.inOrder (h : Serial start s) : InOrder s where
  queue := h.suffix
  increasing := by
    have hlog : s.log.Pairwise fun x y => x.1 < y.1 := by
      rw [pairwise_iff_getElem]
      intro i j hi hj hij
      have hx := h.numbers i _ (getElem?_eq_getElem hi)
      have hy := h.numbers j _ (getElem?_eq_getElem hj)
      rw [UInt64.lt_iff_toNat_lt]
      omega
    exact pairwise_map.mpr (hlog.filter _)
  gaps := by
    intro pre a mid b post hlog hmid
    have ha := h.numbers pre.length (a, true) (by rw [hlog, getElem?_append_right (le_refl _), Nat.sub_self]; rfl)
    have hb := h.numbers (pre.length + 1 + mid.length) (b, true) (by
      rw [hlog, getElem?_append_right (by omega),
        show pre.length + 1 + mid.length - pre.length = mid.length + 1 by omega,
        getElem?_cons_succ, getElem?_append_right (le_refl _), Nat.sub_self]
      rfl)
    simp only at ha hb
    omega

/-- In every run in which the calls do not overlap between taking a number and the queue, no number wraps
around and no event needs the heap, the queue is in the order of the sequence numbers and has no gaps but
those of the events that were dropped. -/
theorem queue_in_order (pid : Int) (g : AgentState) (acts : List ThreadAct)
    (h : Along Threads.step OneByOne (Threads.start pid g) acts) :
    InOrder (run Threads.step (Threads.start pid g) acts) := by
  have hstart : Serial g.seq.toNat (Threads.start pid g) :=
    { marks := length_replicate
      suffix := by simp [Threads.start, accepted]
      numbers := by simp [Threads.start]
      flight := .inl ⟨fun _ => rfl, rfl⟩ }
  exact (run_invariant (Serial g.seq.toNat) (fun _ _ hs hok => hs.step hok) hstart h).inOrder

def plentiful : EmitEnv := ⟨0, true, fun _ => true, true, true, []⟩

/-- One call after the other. -/
theorem queue_in_order_two : InOrder (run Threads.step (Threads.start 1 newState)
    [.number 0 (bytes "a") [], .format 0 plentiful, .push 0 plentiful, .finish 0 plentiful,
      .number 1 (bytes "b") [], .format 1 plentiful, .push 1 plentiful]) := by
  refine queue_in_order 1 newState _ ⟨⟨fun _ => rfl, by decide⟩, ⟨?_, ?_, ?_⟩, trivial, trivial,
    ⟨?_, ?_⟩, ⟨?_, ?_, ?_⟩, trivial, trivial⟩
  · show ∀ c ∈ bytes "a", plainChar c = true
    decide
  · exact fun _ hx => absurd hx not_mem_nil
  · decide
  · intro t
    cases t with
    | zero => rfl
    | succ n => rfl
  · decide
  · show ∀ c ∈ bytes "b", plainChar c = true
    decide
  · exact fun _ hx => absurd hx not_mem_nil
  · decide

/-- A thread that took the first number puts its event into the queue after one that took the second; and
an event that needs an escape takes two numbers. -/
theorem not_in_order :
    ¬InOrder (run Threads.step (Threads.start 1 newState)
        [.number 0 (bytes "a") [], .number 1 (bytes "b") [], .format 1 plentiful, .push 1 plentiful,
          .format 0 plentiful,
          .push 0 plentiful]) ∧
      ¬InOrder (run Threads.step (Threads.start 1 newState)
        [.number 0 (bytes "a") [], .format 0 plentiful, .push 0 plentiful, .finish 0 plentiful,
          .number 0 (bytes "\"") [], .format 0 plentiful, .push 0 plentiful]) := by
  refine ⟨fun h => ?_, fun h => ?_⟩
  · exact absurd h.increasing (by decide)
  · exact absurd (h.gaps [] 1 [] 3 [] (by decide) (by simp)) (by decide)

theorem emit_cases (harmed : call.name = none ∨ g.armed = true)
    (hown : g.thread_spawned = true → g.spawner_pid = pid) :
    ((retrace_agent_emit_event env pid g call).1 = -1 ∧
      (retrace_agent_emit_event env pid g call).2.ring = g.ring) ∨
      PushedOrCounted g.ring (retrace_agent_emit_event env pid g call).2.ring := by
  unfold retrace_agent_emit_event
  cases hname : call.name with
  | none => exact .inl ⟨rfl, rfl⟩
  | some name =>
    have harmed : g.armed = true := harmed.resolve_left (by simp [hname])
    simp only [harmed, not_true, if_false]
    cases call.kv with
    | none => exact .inl ⟨rfl, rfl⟩
    | some kv =>
      simp only [next_seq]
      -- formatting changes the sequence number only
      have hformat : ∀ g' : AgentState, ∃ item seq,
          format_event env g' (g.seq + 1) name kv = (item, { g' with seq := seq }) := by
        intro g'
        unfold format_event build_event_json next_seq
        split
        · exact ⟨_, g'.seq, rfl⟩
        · split_ifs
          · exact ⟨_, g'.seq + 1, rfl⟩
          · exact ⟨_, g'.seq, rfl⟩
      obtain ⟨item, seq, hitem⟩ := hformat { g with seq := g.seq + 1 }
      rw [hitem]
      cases item with
      | none => exact .inl ⟨rfl, rfl⟩
      | some item =>
        refine .inr ?_
        simp only
        obtain ⟨rc, r, heq, hcases⟩ := queue_push_ring { g with seq := seq } item.heap item.text env.copy_ok
        rw [heq]
        simp only
        rw [(adopt_spawn_ring pid env.create_ok { g with seq := seq, ring := r }).2.2.2 hown]
        rcases hcases with ⟨-, h⟩ | ⟨-, h⟩
        · exact .inl h
        · exact .inr h

theorem add_one_ne_self (n : UInt64) : n + 1 ≠ n := by
  intro h
  have := congrArg UInt64.toNat h
  have hlt := n.toNat_lt
  rw [UInt64.toNat_add, UInt64.toNat_one] at this
  omega

theorem Accounted.after (h : Accounted p) (mark : Option Nat) (hring : PushedOrCounted p.g.ring g.ring) :
    Accounted (p.after mark g) ∧ (mark ∈ (p.after mark g).ring ∨ mark ∈ (p.after mark g).counted) := by
  rcases hring with ⟨hcount, hdropped⟩ | ⟨hcount, hdropped⟩
  · have hmarks : (p.after mark g).ring = p.ring ++ [mark] := marksAfter_push h.marks mark hcount
    have hcounted : (p.after mark g).counted = p.counted := if_pos hdropped
    refine ⟨⟨?_, ?_, fun n hn => ?_⟩, .inl (by simp [hmarks])⟩
    · rw [hmarks, length_append, h.marks, length_singleton]
      exact hcount.symm
    · rw [hcounted]
      exact hdropped.trans h.dropped
    · rw [hmarks, hcounted]
      exact (h.events n hn).imp id (Or.imp (fun hn => by simp [hn]) id)
  · have hmarks : (p.after mark g).ring = p.ring := marksAfter_same h.marks mark hcount
    have hcounted : (p.after mark g).counted = p.counted ++ [mark] :=
      if_neg (by rw [hdropped]; exact add_one_ne_self _)
    refine ⟨⟨?_, ?_, fun n hn => ?_⟩, .inr (by simp [hcounted])⟩
    · rw [hmarks, h.marks]
      exact hcount.symm
    · rw [hcounted, length_append, length_singleton, UInt64.ofNat_add, ← UInt64.add_assoc]
      show g.ring.dropped = p.dropped + UInt64.ofNat p.counted.length + 1
      rw [hdropped, h.dropped]
    · rw [hmarks, hcounted]
      exact (h.events n hn).imp id (Or.imp id (fun hn => by simp [hn]))

theorem Accounted.unchanged (h : Accounted p) (mark : Option Nat) (hring : g.ring = p.g.ring) :
    Accounted (p.after mark g) := by
  have hmarks : (p.after mark g).ring = p.ring := marksAfter_same h.marks mark (by rw [hring])
  have hcounted : (p.after mark g).counted = p.counted := if_pos (by rw [hring])
  refine ⟨?_, ?_, fun n hn => ?_⟩
  · rw [hmarks, h.marks]
    exact congrArg (·.ring.count) hring.symm
  · rw [hcounted]
    exact (congrArg (·.dropped) hring).trans h.dropped
  · rw [hmarks, hcounted]
    exact h.events n hn

theorem Accounted.emit (h : Accounted p) (harmed : call.name = none ∨ p.g.armed = true)
    (hown : p.g.thread_spawned = true → p.g.spawner_pid = p.pid) (n : Nat) (env : EmitEnv) :
    Accounted (p.emit n env call) := by
  unfold Proc.emit
  simp only
  rcases emit_cases harmed hown with ⟨hrc, hring⟩ | hring
  · rw [if_neg (by rw [hrc]; decide)]
    exact h.unchanged (some n) hring
  · obtain ⟨hafter, hmark⟩ := h.after (some n) hring
    split_ifs
    · refine ⟨hafter.marks, hafter.dropped, fun k hk => ?_⟩
      rcases mem_append.mp hk with hk | hk
      · exact hafter.events k hk
      · rw [mem_singleton.mp hk]
        exact .inr hmark
    · exact hafter

theorem Accounted.fork (h : Accounted p) (pid : Int) (handler : Bool) : Accounted (p.fork pid handler) where
  marks := by
    cases handler with
    | false =>
      show (p.ring.take p.g.ring.ring.count).length = p.g.ring.ring.count
      rw [← h.marks, take_length]
    | true => exact congrArg List.length (@take_zero _ p.ring)
  dropped := (UInt64.add_zero _).symm
  events := fun _ hn => absurd hn not_mem_nil

theorem Accounted.send (h : Accounted p) (ret : Int) : Accounted (p.send ret) := by
  obtain ⟨-, hdropped, hcount⟩ := drain_turn_ring
  refine ⟨?_, hdropped.trans h.dropped, fun n hn => ?_⟩
  · show (p.ring.drop (p.g.ring.ring.count - (drain_turn p.g ret).2.ring.ring.count)).length =
      (drain_turn p.g ret).2.ring.ring.count
    rw [length_drop, h.marks]
    omega
  · rcases h.events n hn with hd | hr | hc
    · exact .inl (mem_append_left _ hd)
    · rw [← take_append_drop (p.g.ring.ring.count - (drain_turn p.g ret).2.ring.ring.count) p.ring,
        mem_append] at hr
      exact hr.elim (fun hr => .inl (mem_append_right _ hr)) (fun hr => .inr (.inl hr))
    · exact .inr (.inr hc)

/-- A step in which every process has a thread of its own loses no event in any of them. -/
theorem Accounted.step (h : ∀ p ∈ w.procs, Accounted p) (hok : OwnThread w a) :
    ∀ p ∈ (w.step a).procs, Accounted p := by
  cases a with
  | emit i env call =>
    refine forall_modify h fun q hmem hq => ?_
    obtain ⟨harmed, hown⟩ := hok q hq
    exact (h q hmem).emit harmed hown w.calls env
  | fork i pid handler =>
    intro p hp
    rcases mem_append.mp hp with hp | hp
    · exact h p hp
    · obtain ⟨q, hq, rfl⟩ := map_eq_some_iff.mp (mem_toList.mp hp)
      exact (h q (mem_of_getElem? hq)).fork pid handler
  | send i ret => exact forall_modify h fun q hmem _ => (h q hmem).send ret
  | report i now ok =>
    refine forall_modify h fun q hmem _ => ?_
    rcases report_drops_cases.2 with hsame | hring
    · exact (h q hmem).unchanged none hsame
    · exact ((h q hmem).after none hring).1

/-- In every run in which events are put into the queue of an armed agent by processes that did not
inherit a thread, every event whose call returned 0 is accounted for in its process. -/
theorem events_accounted (pid : Int) (g : AgentState) (acts : List ProcAct)
    (h : Along Procs.step OwnThread (Procs.start pid g) acts) :
    ∀ p ∈ (run Procs.step (Procs.start pid g) acts).procs, Accounted p := by
  have hstart : ∀ p ∈ (Procs.start pid g).procs, Accounted p := by
    intro p hp
    rw [mem_singleton.mp hp]
    exact ⟨length_replicate, (UInt64.add_zero _).symm, fun _ hn => absurd hn not_mem_nil⟩
  exact run_invariant (fun w => ∀ p ∈ w.procs, Accounted p) (fun _ _ hs hok => Accounted.step hs hok) hstart h

def plainCall : Call := ⟨some (bytes "a"), some []⟩

/-- A parent and a child in which the handler ran. -/
theorem events_accounted_handler : (run Procs.step (Procs.start 1 newState)
    [.emit 0 plentiful plainCall, .fork 0 2 true, .emit 1 plentiful plainCall]).procs.Forall Accounted := by
  refine forall_iff_forall_mem.mpr (events_accounted 1 newState _ ⟨?_, trivial, ?_, trivial⟩)
  · rintro p hp
    cases hp
    exact ⟨.inr rfl, fun h => nomatch h⟩
  · rintro p hp
    cases hp
    exact ⟨.inr rfl, fun h => nomatch h⟩

/-- The first event of a child in which the handler did not run, and an event of an agent that is not
armed. -/
theorem not_accounted :
    ¬(∀ p ∈ (run Procs.step (Procs.start 1 newState)
        [.emit 0 plentiful plainCall, .fork 0 2 false, .emit 1 plentiful plainCall]).procs, Accounted p) ∧
      ¬(∀ p ∈ (run Procs.step
        (Procs.start 1 { newState with armed := false }) [.emit 0 plentiful plainCall]).procs,
        Accounted p) := by
  refine ⟨fun h => ?_, fun h => ?_⟩
  · exact absurd (fun p hp => (h p hp).events) (by decide)
  · exact absurd (fun p hp => (h p hp).events) (by decide)

end Retrace.Supervisor.Queue
