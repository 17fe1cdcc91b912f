import Retrace.Campaign.Command

/-!
# Commands reach the shell intact exactly when they fit

While everything fits, the lexer is at the end of the last word that was put. From the first text that does
not fit on, the words differ from the ones that were meant, whatever is still put: the few bytes that are
left hold no further argument, and behind them the offset has passed the end of the buffer.
-/

namespace Retrace.Campaign

open CLib Shell List

def Cmd.lex (b : Cmd) : Lexer := Lexer.run (.between []) b.text

theorem delivers_iff :
    Delivers b vector ↔ b.overrun = false ∧ b.lex.finish = some vector := Iff.rfl

theorem Cmd.put_overrun {b : Cmd} (h : CMD_SIZE < b.o) : (b.put s).overrun = true := by
  simp [Cmd.put, h]

theorem Cmd.overrun_put {b : Cmd} (h : b.overrun = true) : (b.put s).overrun = true := by
  unfold Cmd.put
  split_ifs
  · rfl
  · exact h

theorem Cmd.put_o (b : Cmd) (s : Bytes) : (b.put s).o = b.o + s.length := by
  unfold Cmd.put
  split_ifs <;> rfl

theorem Cmd.put_lex {b : Cmd} (h : b.o ≤ CMD_SIZE) (s : Bytes) :
    (b.put s).lex = b.lex.run (s.take (CMD_SIZE - b.o - 1)) ∧ (b.put s).overrun = b.overrun := by
  unfold Cmd.put
  rw [if_neg (by omega)]
  exact ⟨Lexer.run_append _ _ _, rfl⟩

theorem Cmd.put_lex_fits {b : Cmd} (h : b.o + s.length < CMD_SIZE) :
    (b.put s).lex = b.lex.run s ∧ (b.put s).overrun = b.overrun := by
  have := Cmd.put_lex (b := b) (by omega) s
  rwa [take_of_length_le (by omega)] at this

theorem Cmd.put_char_lex (b : Cmd) (c : UInt8) : (b.put_char c).lex = b.lex.run [c] := Lexer.run_append _ _ _

theorem escapeQuotes_length_pos (c : UInt8) : 1 ≤ (escapeQuotes [c]).length ∧ (escapeQuotes [c]).length ≤ 4 := by
  by_cases h : c = squote <;> simp [escapeQuotes, h]

theorem put_escaped {b : Cmd} (hlex : b.lex = .single done w) (hroom : b.o + 4 < CMD_SIZE)
    (c : UInt8) :
    let b' := if c = squote then b.put [squote, backslash, squote, squote] else b.put_char c
    b'.lex = .single done (w ++ [c]) ∧ b'.o = b.o + (escapeQuotes [c]).length ∧ b'.overrun = b.overrun := by
  have hrun := run_single_escapeQuotes done w [c]
  by_cases hc : c = squote
  · subst hc
    obtain ⟨hput, hover⟩ :=
        Cmd.put_lex_fits (b := b) (s := [squote, backslash, squote, squote]) (by simpa using hroom)
    simp only [if_true]
    refine ⟨?_, Cmd.put_o _ _, hover⟩
    rw [hput, hlex]
    exact hrun
  · have hesc : escapeQuotes [c] = [c] := by simp [escapeQuotes, hc]
    simp only [if_neg hc]
    refine ⟨?_, by rw [hesc]; rfl, rfl⟩
    rw [Cmd.put_char_lex, hlex]
    rw [hesc] at hrun
    exact hrun

theorem cmd_arg_loop_spec {done : List Bytes} (arg : Bytes) (hlex : b.lex = .single done w) (ho : b.o < CMD_SIZE) :
    ∃ pre rest, arg = pre ++ rest ∧ (cmd_arg_loop b arg).lex = .single done (w ++ pre) ∧
      (cmd_arg_loop b arg).o = b.o + (escapeQuotes pre).length ∧ (cmd_arg_loop b arg).o < CMD_SIZE ∧
      (cmd_arg_loop b arg).overrun = b.overrun ∧ (rest ≠ [] → CMD_SIZE ≤ (cmd_arg_loop b arg).o + 4) ∧
      ∀ p c, pre = p ++ [c] → b.o + (escapeQuotes p).length + 4 < CMD_SIZE := by
  induction arg generalizing b w with
  | nil => exact ⟨[], [], rfl, by simpa [cmd_arg_loop] using hlex, rfl, ho, rfl, by simp, by simp⟩
  | cons c arg ih =>
    rw [cmd_arg_loop]
    by_cases hroom : b.o + 4 < CMD_SIZE
    · rw [if_pos hroom]
      obtain ⟨hlex', ho', hover'⟩ := put_escaped hlex hroom c
      have hlen := escapeQuotes_length_pos c
      obtain ⟨pre, rest, rfl, hl, hoff, hlt, hover, hrest, hpre⟩ := ih hlex' (by omega)
      have hcons : escapeQuotes (c :: pre) = escapeQuotes [c] ++ escapeQuotes pre := by
        rw [← escapeQuotes_append]
        rfl
      refine ⟨c :: pre, rest, rfl, by simpa using hl, ?_, hlt, hover.trans hover', hrest, ?_⟩
      · rw [hoff, ho', hcons, length_append, Nat.add_assoc]
      · intro p d hp
        cases p with
        | nil => simpa using hroom
        | cons e p =>
          obtain ⟨rfl, htail⟩ := cons.inj hp
          have hcons' : escapeQuotes (c :: p) = escapeQuotes [c] ++ escapeQuotes p := by
            rw [← escapeQuotes_append]
            rfl
          have := hpre p d htail
          rw [hcons', length_append]
          omega
    · rw [if_neg hroom]
      exact ⟨[], c :: arg, rfl, by simpa using hlex, rfl, ho, rfl, fun _ => by omega, by simp⟩

/-- Everything fitted up to the offset `n`: the words are `done` and `w`. -/
structure Good (b : Cmd) (n : Nat) (done : List Bytes) (w : Bytes) : Prop where
  overrun : b.overrun = false
  offset : b.o = n
  inside : n < CMD_SIZE
  lex : b.lex = .word done w

theorem Good.delivers (h : Good b n done w) : Delivers b (done ++ [w]) := by
  refine delivers_iff.mpr ⟨h.overrun, ?_⟩
  rw [h.lex]
  rfl

theorem Good.open_arg (h : Good b n done w) (hn : n + 2 < CMD_SIZE) :
    (b.put (bytes " '")).lex = .single (done ++ [w]) [] ∧ (b.put (bytes " '")).o = n + 2 ∧
      (b.put (bytes " '")).overrun = false := by
  obtain ⟨hput, hover⟩ := Cmd.put_lex_fits (b := b) (s := bytes " '") (by rw [h.offset]; exact hn)
  refine ⟨?_, by rw [Cmd.put_o, h.offset]; rfl, hover.trans h.overrun⟩
  rw [hput, h.lex]
  rfl

theorem escapeQuotes_length_le (h : p <+: q) : (escapeQuotes p).length ≤ (escapeQuotes q).length := by
  obtain ⟨r, rfl⟩ := h
  rw [escapeQuotes_append, length_append]
  omega

theorem Good.arg (h : Good b n done w) {arg : Bytes} (hfits : ArgFits n arg) :
    Good (cmd_arg b arg) (n + (quoted arg).length) (done ++ [w]) arg := by
  obtain ⟨hend, hchars⟩ := hfits
  obtain ⟨hlex, ho, hover⟩ := h.open_arg (by omega)
  obtain ⟨pre, rest, harg, hl, hoff, hlt, hover', hrest, -⟩ := cmd_arg_loop_spec arg hlex (by omega)
  have hnil : rest = [] := by
    by_contra hne
    have hfull := hrest hne
    obtain ⟨front, c, rfl⟩ : ∃ front c, rest = front ++ [c] :=
      ⟨rest.dropLast, rest.getLast hne, (dropLast_append_getLast hne).symm⟩
    have := hchars (pre ++ front) c (by rw [harg, append_assoc])
    have hle := escapeQuotes_length_le (prefix_append pre front)
    omega
  subst hnil
  obtain rfl : arg = pre := by simpa using harg
  have hlen : (quoted arg).length = 2 + (escapeQuotes arg).length + 1 := by
    simp [quoted, bytes]
    omega
  have hclose : (cmd_arg_loop (b.put (bytes " '")) arg).o + [squote].length < CMD_SIZE := by
    simp only [length_singleton]
    omega
  obtain ⟨hput, hover''⟩ := Cmd.put_lex_fits hclose
  refine ⟨hover''.trans (hover'.trans hover), ?_, by omega, ?_⟩
  · rw [cmd_arg, Cmd.put_o]
    simp only [length_singleton]
    omega
  · rw [cmd_arg, hput, hl]
    simp [Lexer.step]

theorem Good.word (h : Good b n done w) {s : Bytes} (hs : s.all ordinary = true) (hne : s ≠ [])
    (hfits : n + (32 :: s).length < CMD_SIZE) : Good (b.put (32 :: s)) (n + (32 :: s).length) (done ++ [w]) s := by
  obtain ⟨hput, hover⟩ := Cmd.put_lex_fits (b := b) (s := 32 :: s) (by rw [h.offset]; exact hfits)
  refine ⟨hover.trans h.overrun, by rw [Cmd.put_o, h.offset], hfits, ?_⟩
  rw [hput, h.lex]
  exact run_blank_ordinary done w hs hne

/-- The words are not `vector`, and cannot become a longer one: something was written behind the end, or the
last word is not right and no argument fits any more, or the offset has passed the end. -/
inductive Bad (b : Cmd) (vector : List Bytes) : Prop where
  | overrun (h : b.overrun = true)
  | cut {done : List Bytes} {w : Bytes} (hlow : CMD_SIZE ≤ b.o + 3) (hhigh : b.o < CMD_SIZE)
      (hlex : b.lex = .word done w) (hlen : done.length + 1 = vector.length) (hne : done ++ [w] ≠ vector)
  | full (ho : CMD_SIZE ≤ b.o) (hne : ∀ more, b.lex.finish ≠ some (vector ++ more))

theorem Bad.finish_ne (h : Bad b vector) :
    b.overrun = true ∨ (CMD_SIZE ≤ b.o + 3 ∧ ∀ more, b.lex.finish ≠ some (vector ++ more)) := by
  cases h with
  | overrun h => exact .inl h
  | cut hlow hhigh hlex hlen hne =>
    refine .inr ⟨hlow, fun more hfin => ?_⟩
    rw [hlex] at hfin
    have heq := Option.some.inj hfin
    have hmore : more = [] := by
      have := congrArg length heq
      simp only [length_append, length_singleton] at this
      exact length_eq_zero_iff.mp (by omega)
    rw [hmore, append_nil] at heq
    exact hne heq
  | full ho hne => exact .inr ⟨by omega, hne⟩

theorem Bad.not_delivers (h : Bad b vector) : ¬ Delivers b vector := by
  rintro ⟨hover, hwords⟩
  rcases h.finish_ne with h | ⟨-, hne⟩
  · rw [hover] at h
    cases h
  · exact hne [] (by rw [append_nil]; exact hwords)

theorem append_ne_of_length (h : xs.length ≤ vector.length) : xs ≠ vector ++ [a] ++ more := by
  intro heq
  have := congrArg length heq
  simp only [length_append, length_singleton] at this
  omega

theorem cmd_arg_loop_of_full {b : Cmd} (h : CMD_SIZE ≤ b.o + 4) : cmd_arg_loop b arg = b := by
  cases arg with
  | nil => rfl
  | cons c arg => rw [cmd_arg_loop, if_neg (by omega)]

theorem cmd_arg_overrun (h : CMD_SIZE ≤ b.o + 1) : (cmd_arg b arg).overrun = true := by
  have ho : (b.put (bytes " '")).o = b.o + 2 := Cmd.put_o _ _
  rw [cmd_arg, cmd_arg_loop_of_full (by omega)]
  exact Cmd.put_overrun (by omega)

theorem overrun_cmd_arg (h : b.overrun = true) : (cmd_arg b arg).overrun = true := by
  have hloop : ∀ {b : Cmd}, b.overrun = true → (cmd_arg_loop b arg).overrun = true := by
    induction arg with
    | nil => exact id
    | cons c arg ih =>
      intro b hb
      rw [cmd_arg_loop]
      split_ifs
      · exact ih (Cmd.overrun_put hb)
      · exact ih hb
      · exact hb
  exact Cmd.overrun_put (hloop (Cmd.overrun_put h))

/-- With two or three bytes left the argument is not written at all, and its opening not or in part. -/
theorem cmd_arg_cut (hlow : CMD_SIZE ≤ b.o + 3) (hhigh : b.o + 1 < CMD_SIZE) (arg : Bytes) :
    CMD_SIZE ≤ (cmd_arg b arg).o ∧ (cmd_arg b arg).lex = b.lex.run ((bytes " '").take (CMD_SIZE - b.o - 1)) := by
  have ho : (b.put (bytes " '")).o = b.o + 2 := Cmd.put_o _ _
  have hclose : [squote].take (CMD_SIZE - (b.put (bytes " '")).o - 1) = [] := by
    rw [take_eq_nil_iff]
    omega
  obtain ⟨hput, -⟩ := Cmd.put_lex (b := b) (by omega) (bytes " '")
  obtain ⟨hput', -⟩ := Cmd.put_lex (b := b.put (bytes " '")) (by omega) [squote]
  rw [cmd_arg, cmd_arg_loop_of_full (by omega), hput', hclose, Lexer.run_nil, Cmd.put_o, ho]
  exact ⟨hlow, hput⟩

theorem Bad.arg (h : Bad b vector) (arg : Bytes) : Bad (cmd_arg b arg) (vector ++ [arg]) := by
  cases h with
  | overrun h => exact .overrun (overrun_cmd_arg h)
  | full ho hne => exact .overrun (cmd_arg_overrun (by omega))
  | @cut done w hlow hhigh hlex hlen hne =>
    by_cases hlast : CMD_SIZE ≤ b.o + 1
    · exact .overrun (cmd_arg_overrun hlast)
    obtain ⟨hend, hcut⟩ := cmd_arg_cut hlow (by omega) arg
    refine .full hend fun more => ?_
    rw [hcut, hlex]
    by_cases htwo : CMD_SIZE = b.o + 3
    · have htake : CMD_SIZE - b.o - 1 = 2 := by omega
      rw [htake]
      exact nofun
    · have htake : CMD_SIZE - b.o - 1 = 1 := by omega
      rw [htake]
      intro hfin
      exact append_ne_of_length (by simp [← hlen]) (Option.some.inj hfin)

theorem Good.arg_bad (h : Good b n done w) {arg : Bytes} (hfits : ¬ ArgFits n arg) :
    Bad (cmd_arg b arg) (done ++ [w] ++ [arg]) := by
  obtain ⟨hover, rfl, hinside, hlex⟩ := h
  by_cases hlast : CMD_SIZE ≤ b.o + 1
  · exact .overrun (cmd_arg_overrun hlast)
  have ho : (b.put (bytes " '")).o = b.o + 2 := Cmd.put_o _ _
  by_cases hopen : b.o + 2 < CMD_SIZE
  · obtain ⟨hlex1, -, hover1⟩ := Good.open_arg ⟨hover, rfl, hinside, hlex⟩ hopen
    obtain ⟨pre, rest, harg, hl, hoff, hlt, -, hrest, hchars⟩ := cmd_arg_loop_spec arg hlex1 (by omega)
    rw [nil_append] at hl
    have hend : (cmd_arg b arg).o = (cmd_arg_loop (b.put (bytes " '")) arg).o + 1 := Cmd.put_o _ _
    obtain ⟨hput, -⟩ := Cmd.put_lex (b := cmd_arg_loop (b.put (bytes " '")) arg) (by omega) [squote]
    by_cases hroom : (cmd_arg_loop (b.put (bytes " '")) arg).o + 1 < CMD_SIZE
    · -- The closing quotation mark is written, so a part of the argument is not.
      have hne : rest ≠ [] := by
        rintro rfl
        obtain rfl : arg = pre := by simpa using harg
        exact hfits ⟨by omega, fun p c hp => by have := hchars p c hp; omega⟩
      have hcut : pre ≠ arg := by
        intro heq
        rw [heq, self_eq_append_right] at harg
        exact hne harg
      have hfull := hrest hne
      have htake : [squote].take (CMD_SIZE - (cmd_arg_loop (b.put (bytes " '")) arg).o - 1) = [squote] :=
        take_of_length_le (by simp only [length_singleton]; omega)
      refine @Bad.cut _ _ (done ++ [w]) pre (by omega) (by omega) ?_ (by simp) ?_
      · rw [cmd_arg, hput, htake, hl]
        simp [Lexer.step]
      · intro heq
        exact hcut (by simpa using heq)
    · refine .full (by omega) fun more => ?_
      have htake : [squote].take (CMD_SIZE - (cmd_arg_loop (b.put (bytes " '")) arg).o - 1) = [] := by
        rw [take_eq_nil_iff]
        omega
      rw [cmd_arg, hput, htake, Lexer.run_nil, hl]
      rintro ⟨⟩
  · -- Only the blank is written.
    obtain ⟨hend, hcut⟩ := cmd_arg_cut (b := b) (by omega) (by omega) arg
    refine .full hend fun more => ?_
    rw [hcut, hlex, show CMD_SIZE - b.o - 1 = 1 by omega]
    intro hfin
    exact append_ne_of_length (by simp) (Option.some.inj hfin)

theorem finish_take_word (hs : s.all ordinary = true) (hk : k ≤ s.length) :
    (Lexer.run (.word done w) ((32 :: s).take k)).finish = some (done ++ [w]) ∨ ∃ s', s'.length < s.length ∧
        (Lexer.run (.word done w) ((32 :: s).take k)).finish = some (done ++ [w] ++ [s']) := by
  match k with
  | 0 => exact .inl rfl
  | 1 => exact .inl rfl
  | k + 2 =>
    have hpart : (s.take (k + 1)).all ordinary = true := by
      rw [all_eq_true] at hs ⊢
      exact fun c hc => hs c (mem_of_mem_take hc)
    have hne : s.take (k + 1) ≠ [] := by
      rw [Ne, take_eq_nil_iff]
      rintro (h | rfl)
      · omega
      · simp at hk
    refine .inr ⟨s.take (k + 1), by rw [length_take]; omega, ?_⟩
    rw [take_succ_cons, run_blank_ordinary done w hpart hne]
    rfl

theorem Good.word_bad (h : Good b n done w) {s : Bytes}
    (hs : s.all ordinary = true) (hfits : ¬ n + (32 :: s).length < CMD_SIZE) :
    Bad (b.put (32 :: s)) (done ++ [w] ++ [s]) := by
  obtain ⟨-, rfl, hinside, hlex⟩ := h
  obtain ⟨hput, -⟩ := Cmd.put_lex (b := b) (by omega) (32 :: s)
  refine .full (by rw [Cmd.put_o]; omega) fun more hfin => ?_
  rw [length_cons] at hfits
  rw [hput, hlex] at hfin
  rcases finish_take_word hs (k := CMD_SIZE - b.o - 1) (by omega) with hnone | ⟨s', hlt, hpart⟩
  · rw [hnone] at hfin
    exact append_ne_of_length (Nat.le_refl _) (Option.some.inj hfin)
  · rw [hpart] at hfin
    have heq : [s'] = [s] ++ more := by
      have := Option.some.inj hfin
      rw [append_assoc (done ++ [w]) [s] more] at this
      exact append_cancel_left this
    obtain ⟨rfl, -⟩ := cons.inj heq
    omega

theorem Bad.word (h : Bad b vector) {s : Bytes} (hs : s.all ordinary = true) (hlen : 2 ≤ s.length) :
    Bad (b.put (32 :: s)) (vector ++ [s]) := by
  cases h with
  | overrun h => exact .overrun (Cmd.overrun_put h)
  | full ho hne =>
    by_cases hlt : CMD_SIZE < b.o
    · exact .overrun (Cmd.put_overrun hlt)
    · obtain ⟨hput, -⟩ := Cmd.put_lex (b := b) (by omega) (32 :: s)
      have htake : CMD_SIZE - b.o - 1 = 0 := by omega
      refine .full (by rw [Cmd.put_o]; omega) fun more => ?_
      rw [hput, htake, take_zero, Lexer.run_nil, append_assoc]
      exact hne _
  | @cut done w hlow hhigh hlex hcount hne =>
    obtain ⟨hput, -⟩ := Cmd.put_lex (b := b) (by omega) (32 :: s)
    refine .full (by rw [Cmd.put_o, length_cons]; omega) fun more hfin => ?_
    rw [hput, hlex] at hfin
    rcases finish_take_word hs (k := CMD_SIZE - b.o - 1) (by omega) with hnone | ⟨s', -, hpart⟩
    · rw [hnone] at hfin
      exact append_ne_of_length (by simp [← hcount]) (Option.some.inj hfin)
    · rw [hpart] at hfin
      have heq := Option.some.inj hfin
      rw [append_assoc vector] at heq
      exact hne (append_inj_left heq (by simp [← hcount]))

/-- Behind the words `vector`, which end at the offset `n` if everything fits: `fits` says whether it does. -/
def Tracks (b : Cmd) (n : Nat) (vector : List Bytes) (fits : Prop) : Prop :=
  (fits ∧ ∃ done w, vector = done ++ [w] ∧ Good b n done w) ∨ (¬ fits ∧ Bad b vector)

theorem Tracks.delivers_iff (h : Tracks b n vector fits) : Delivers b vector ↔ fits := by
  rcases h with ⟨hfits, done, w, rfl, hgood⟩ | ⟨hfits, hbad⟩
  · exact iff_of_true hgood.delivers hfits
  · exact iff_of_false hbad.not_delivers hfits

theorem Tracks.arg (h : Tracks b n vector fits) (arg : Bytes) :
    Tracks (cmd_arg b arg) (n + (quoted arg).length) (vector ++ [arg]) (fits ∧ ArgFits n arg) := by
  rcases h with ⟨hfits, done, w, rfl, hgood⟩ | ⟨hfits, hbad⟩
  · by_cases harg : ArgFits n arg
    · exact .inl ⟨⟨hfits, harg⟩, _, _, rfl, hgood.arg harg⟩
    · exact .inr ⟨fun hf => harg hf.2, hgood.arg_bad harg⟩
  · exact .inr ⟨fun hf => hfits hf.1, hbad.arg arg⟩

theorem Tracks.word (h : Tracks b n vector fits) (hs : s.all ordinary = true) (hlen : 2 ≤ s.length) :
    Tracks (b.put (32 :: s)) (n + (32 :: s).length) (vector ++ [s]) (fits ∧ n + (32 :: s).length < CMD_SIZE) := by
  rcases h with ⟨hfits, done, w, rfl, hgood⟩ | ⟨hfits, hbad⟩
  · by_cases hword : n + (32 :: s).length < CMD_SIZE
    · have hne : s ≠ [] := by
        rintro rfl
        simp at hlen
      exact .inl ⟨⟨hfits, hword⟩, _, _, rfl, hgood.word hs hne hword⟩
    · exact .inr ⟨fun hf => hword hf.2, hgood.word_bad hs hword⟩
  · exact .inr ⟨fun hf => hfits hf.1, hbad.word hs hlen⟩

theorem Tracks.argv (h : Tracks b n vector fits) (argv : List Bytes) :
    ∃ n', Tracks (argv.foldl cmd_arg b) n' (vector ++ argv) (fits ∧ ArgvFit n argv) := by
  induction argv generalizing b n vector fits with
  | nil => exact ⟨n, by simpa [ArgvFit] using h⟩
  | cons arg argv ih =>
    obtain ⟨n', hn'⟩ := ih (h.arg arg)
    refine ⟨n', ?_⟩
    simpa [ArgvFit, and_assoc] using hn'

theorem cmd_start_tracks (ctl_sock : Bytes) :
    Tracks (cmd_start ctl_sock) (start_text ctl_sock).length (start_vector ctl_sock) (StartFits ctl_sock) := by
  have hctl : Tracks (({} : Cmd).put CAMPAIGN_CTL) CAMPAIGN_CTL.length [CAMPAIGN_CTL] True :=
    .inl ⟨trivial, [], CAMPAIGN_CTL, rfl, rfl, rfl, by decide, rfl⟩
  by_cases hsock : ctl_sock = []
  · subst hsock
    have hfits : StartFits [] ↔ True := iff_true_intro fun h => absurd rfl h
    simpa [cmd_start, start_text, start_vector, hfits] using hctl
  · have hword := hctl.word (s := bytes "--sock") (by decide) (by decide)
    have harg := hword.arg ctl_sock
    have hlt : CAMPAIGN_CTL.length + (32 :: bytes "--sock").length < CMD_SIZE := by decide
    have hfits : StartFits ctl_sock ↔ ArgFits (CAMPAIGN_CTL.length + (32 :: bytes "--sock").length) ctl_sock := by
      simp only [StartFits, ne_eq, hsock, not_false_eq_true, true_implies]
      rfl
    have hlen : (start_text ctl_sock).length =
        CAMPAIGN_CTL.length + (32 :: bytes "--sock").length + (quoted ctl_sock).length := by
      rw [start_text, if_pos hsock, length_append, length_append, Nat.add_assoc]
      rfl
    have hvector : start_vector ctl_sock = [CAMPAIGN_CTL] ++ [bytes "--sock"] ++ [ctl_sock] := by
      rw [start_vector, if_pos hsock]
      rfl
    rw [hlen, hvector]
    simp only [hlt, true_and, ← hfits] at harg
    have hcmd : cmd_start ctl_sock =
        cmd_arg ((({} : Cmd).put CAMPAIGN_CTL).put (32 :: bytes "--sock")) ctl_sock := by
      rw [cmd_start, if_pos hsock]
      rfl
    rw [hcmd]
    exact harg

theorem spawn_delivers_iff : Delivers (spawn_cmd ctl_sock preload argv) (spawn_vector ctl_sock preload argv) ↔
      SpawnFits ctl_sock preload argv := by
  have hspawn := (cmd_start_tracks ctl_sock).word (s := bytes "spawn") (by decide) (by decide)
  have hlen : (start_text ctl_sock).length + (32 :: bytes "spawn").length =
      (start_text ctl_sock ++ bytes " spawn").length := by
    rw [length_append]
    rfl
  rw [hlen] at hspawn
  by_cases hpre : preload = []
  · subst hpre
    obtain ⟨n', hargv⟩ := (hspawn.word (s := bytes "--") (by decide) (by decide)).argv argv
    have htext : (start_text ctl_sock ++ bytes " spawn").length + (32 :: bytes "--").length =
        (spawn_text ctl_sock []).length := by
      simp [spawn_text, bytes]
    have hvector : spawn_vector ctl_sock [] argv = start_vector ctl_sock ++ [bytes "spawn"] ++
        [bytes "--"] ++ argv := by
      simp [spawn_vector]
    rw [htext, ← hvector] at hargv
    have hcmd : spawn_cmd ctl_sock [] argv =
        argv.foldl cmd_arg (((cmd_start ctl_sock).put (32 :: bytes "spawn")).put (32 :: bytes "--")) := rfl
    rw [hcmd, hargv.delivers_iff]
    simp only [SpawnFits, ne_eq, not_true_eq_false, false_implies, true_and, and_assoc]
  · have hword := (hspawn.word (s := bytes "--preload") (by decide) (by decide)).arg preload
    obtain ⟨n', hargv⟩ := (hword.word (s := bytes "--") (by decide) (by decide)).argv argv
    have hlen' : (start_text ctl_sock ++ bytes " spawn").length + (32 :: bytes "--preload").length =
        (start_text ctl_sock ++ bytes " spawn" ++ bytes " --preload").length := by
      simp [bytes]
    have htext : (start_text ctl_sock ++ bytes " spawn" ++ bytes " --preload").length + (quoted preload).length +
        (32 :: bytes "--").length = (spawn_text ctl_sock preload).length := by
      rw [spawn_text, if_pos hpre]
      simp only [length_append]
      have : (32 :: bytes "--").length = (bytes " --").length := rfl
      omega
    have hvector : spawn_vector ctl_sock preload argv =
        start_vector ctl_sock ++ [bytes "spawn"] ++ [bytes "--preload"] ++ [preload] ++ [bytes "--"] ++ argv := by
      simp [spawn_vector, hpre]
    rw [hlen', htext, ← hvector] at hargv
    have hcmd : spawn_cmd ctl_sock preload argv =
        argv.foldl cmd_arg ((cmd_arg
          (((cmd_start ctl_sock).put (32 :: bytes "spawn")).put (32 :: bytes "--preload"))
          preload).put (32 :: bytes "--")) := by
      rw [spawn_cmd, if_pos hpre]
      rfl
    rw [hcmd, hargv.delivers_iff]
    simp only [SpawnFits, ne_eq, hpre, not_false_eq_true, true_implies, and_assoc]

/-- What `ctl_run` has put so far: `fits` says whether all of it fitted. When it did not, no further argument
is put. -/
def TracksVerb (b : Cmd) (n : Nat) (vector : List Bytes) (fits : Prop) : Prop :=
  (fits ∧ ∃ done w, vector = done ++ [w] ∧ Good b n done w) ∨
    (¬ fits ∧ (b.overrun = true ∨ (CMD_SIZE ≤ b.o + 4 ∧ ∀ more, b.lex.finish ≠ some (vector ++ more))))

theorem Tracks.verb (h : Tracks b n vector fits) : TracksVerb b n vector fits := by
  refine h.imp id fun ⟨hfits, hbad⟩ => ⟨hfits, hbad.finish_ne.imp id fun ⟨ho, hne⟩ => ⟨by omega, hne⟩⟩

theorem TracksVerb.delivers_iff (h : TracksVerb b n vector fits) : Delivers b vector ↔ fits := by
  rcases h with ⟨hfits, done, w, rfl, hgood⟩ | ⟨hfits, hbad⟩
  · exact iff_of_true hgood.delivers hfits
  · refine iff_of_false (fun hdel => ?_) hfits
    rcases hbad with hover | ⟨-, hne⟩
    · rw [hdel.1] at hover
      cases hover
    · exact hne [] (by rw [append_nil]; exact hdel.2)

theorem TracksVerb.arg (h : TracksVerb b n vector fits) (arg : Bytes) :
    TracksVerb (if b.o + 4 < CMD_SIZE then cmd_arg b arg else b) (n + (quoted arg).length) (vector ++ [arg])
      (fits ∧ n + 4 < CMD_SIZE ∧ ArgFits n arg) := by
  rcases h with ⟨hfits, done, w, rfl, hgood⟩ | ⟨hfits, hbad⟩
  · have hoff := hgood.offset
    by_cases hroom : b.o + 4 < CMD_SIZE
    · rw [if_pos hroom]
      have htracks : Tracks b n (done ++ [w]) True := .inl ⟨trivial, done, w, rfl, hgood⟩
      have harg := (htracks.arg arg).verb
      have hiff : (True ∧ ArgFits n arg) ↔ (fits ∧ n + 4 < CMD_SIZE ∧ ArgFits n arg) := by
        rw [hoff] at hroom
        simp [hfits, hroom]
      rwa [TracksVerb, hiff] at harg
    · rw [if_neg hroom]
      refine .inr ⟨fun hf => hroom (by rw [hoff]; exact hf.2.1), .inr ⟨by omega, fun more hfin => ?_⟩⟩
      rw [hgood.lex] at hfin
      exact append_ne_of_length (Nat.le_refl _) (Option.some.inj hfin)
  · refine .inr ⟨fun hf => hfits hf.1, ?_⟩
    rcases hbad with hover | ⟨ho, hne⟩
    · left
      split_ifs
      · exact overrun_cmd_arg hover
      · exact hover
    · rw [if_neg (by omega)]
      refine .inr ⟨ho, fun more => ?_⟩
      rw [append_assoc]
      exact hne _

theorem TracksVerb.extra (h : TracksVerb b n vector fits) (extra : List Bytes) :
    ∃ n', TracksVerb (cmd_extra b extra) n' (vector ++ extra) (fits ∧ ExtraFit n extra) := by
  induction extra generalizing b n vector fits with
  | nil => exact ⟨n, by simpa [ExtraFit, cmd_extra] using h⟩
  | cons arg extra ih =>
    obtain ⟨n', hn'⟩ := ih (h.arg arg)
    refine ⟨n', ?_⟩
    simpa [ExtraFit, cmd_extra, and_assoc] using hn'

theorem ctl_delivers_iff :
    Delivers ( ctl_run_cmd ctl_sock extra) (ctl_vector ctl_sock extra) ↔ CtlFits ctl_sock extra := by
  obtain ⟨n', h⟩ := (cmd_start_tracks ctl_sock).verb.extra extra
  exact h.delivers_iff

/-- The commands of a campaign reach the shell intact exactly when they fit into the buffer. -/
theorem commands_intact_iff (c : Plan) : CommandsIntact c ↔ CommandsFit c := by
  refine forall₂_congr fun cell _ => forall₂_congr fun sample _ => forall₂_congr fun policy _ => ?_
  constructor
  · rintro ⟨hpush, hspawn, hawait⟩
    refine ⟨ctl_delivers_iff.mp hpush, spawn_delivers_iff.mp hspawn, fun pid hpos hlt => ?_⟩
    exact ctl_delivers_iff.mp (hawait pid hpos hlt)
  · rintro ⟨hpush, hspawn, hawait⟩
    refine ⟨ctl_delivers_iff.mpr hpush, spawn_delivers_iff.mpr hspawn, fun pid hpos hlt => ?_⟩
    exact ctl_delivers_iff.mpr (hawait pid hpos hlt)

def oneRun (argv : List Bytes) : Plan where
  samples := [⟨bytes "n", argv⟩]
  policies := [⟨bytes "p", bytes "q"⟩]
  repeats := 1
  concurrency := 1
  timeout_sec := 30
  preload := []
  ctl_sock := bytes "s"
  journal_base := bytes "j"
  cells := [⟨0, 0, 0⟩]

def oneRunManifest (a b c : Bytes) : FS := fun _ =>
  some (bytes "\x7b\"ctl_sock\":\"s\",\"journal\":\"j\",\"samples\":[\x7b\"name\":\"n\",\"argv\":[\"" ++
    a ++ bytes "\",\"" ++ b ++ bytes "\",\"" ++ c ++
    bytes "\"]\x7d],\"policies\":[\x7b\"name\":\"p\",\"path\":\"q\"\x7d]\x7d")

theorem not_intact_oneRun (h : (spawn_cmd (bytes "s") [] argv).overrun = true) :
    ¬ CommandsIntact (oneRun argv) := by
  intro hintact
  have hspawn : (spawn_cmd (bytes "s") [] argv).overrun = false :=
    (hintact ⟨0, 0, 0⟩ mem_cons_self ⟨bytes "n", argv⟩ rfl ⟨bytes "p", bytes "q"⟩ rfl).spawn.1
  rw [h] at hspawn
  cases hspawn

/-- A long first argument is cut, and the third is written behind the end of the buffer. -/
theorem not_commands_intact :
    campaign_load (oneRunManifest (List.replicate 2100 97) (bytes "x") (bytes "y")) (bytes "m") =
      .ok (oneRun [List.replicate 2100 97, bytes "x", bytes "y"]) ∧
    (oneRun [List.replicate 2100 97, bytes "x", bytes "y"]).Accepted ∧
    (spawn_cmd (bytes "s") [] [List.replicate 2100 97, bytes "x", bytes "y"]).overrun = true ∧
    ¬ CommandsIntact (oneRun [List.replicate 2100 97, bytes "x", bytes "y"]) := by
  have hover : (spawn_cmd (bytes "s") [] [replicate 2100 97, bytes "x", bytes "y"]).overrun = true := by
    decide +kernel
  exact ⟨by decide +kernel, by decide, hover, not_intact_oneRun hover⟩

end Retrace.Campaign
