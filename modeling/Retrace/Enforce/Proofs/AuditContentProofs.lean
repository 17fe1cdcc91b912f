import Retrace.Enforce.Proofs.AuditProofs
import Retrace.Json.Proofs.SerializeProofs

/-!
# What the trail authenticates

The hash of a record covers the bytes in front of the first hash marker of its line. The replay compares it
with the text behind the marker and looks at nothing that follows. The arguments pass through a buffer of 1024
bytes before they are hashed, and what does not fit is dropped.
-/

namespace Retrace.Enforce

open CLib Retraced Parson List

variable {C : Crypto} {build : Build} {key : Option C.PublicKey} {prev line last s av : Bytes} {n count : Nat}
  {args lines : List Bytes}

def Ends (rest : Bytes) : Prop :=
  rest = bytes "\"\x7d\n" ∨ ∃ sig, dquote ∉ sig ∧ rest = bytes "\"" ++ SIG_MARKER ++ sig ++ bytes "\"\x7d\n"

def IsRecordLine (build : Build) (prev line hash : Bytes) : Prop :=
  ∃ payload rest, Ends rest ∧ line = payload ++ (HASH_MARKER ++ hash ++ rest) ∧
    strstr line HASH_MARKER = some (HASH_MARKER ++ hash ++ rest) ∧
      enforce_audit_hash build prev payload = some hash

def Chained (build : Build) : Bytes → List Bytes → Prop
  | _, [] => True
  | prev, line :: lines => ∃ hash, IsRecordLine build prev line hash ∧ Chained build hash lines

def Closed (line : Bytes) : Prop :=
  ∃ rest, Ends rest ∧ strstr line HASH_MARKER = some (HASH_MARKER ++ extract_hash line ++ rest)

theorem strstr_suffix (h : strstr s needle = some r) : r <:+ s := by
  induction s with
  | nil =>
    rw [strstr] at h
    split_ifs at h
    rw [Option.some.inj h]
  | cons c s ih =>
    rw [strstr] at h
    split_ifs at h
    · rw [Option.some.inj h]
    · exact (ih h).trans (suffix_cons c s)

theorem verify_line_some {stored : Bytes} (h : verify_line build key prev line = some stored) :
    line.getLast? = some newline ∧ stored = extract_hash line ∧ ∃ hp, strstr line HASH_MARKER = some hp ∧
      enforce_audit_hash build prev (line.take (line.length - hp.length)) = some stored := by
  unfold verify_line at h
  split_ifs at h with hlast
  split at h
  · exact absurd h (by simp)
  · rename_i hp hhp
    dsimp only at h
    split_ifs at h with hstored
    simp only [not_or, not_not] at hlast hstored
    have heq : extract_hash line = stored := by
      split at h
      · split_ifs at h
        exact Option.some.inj h
      · exact Option.some.inj h
    exact ⟨hlast, heq.symm, hp, hhp, heq ▸ hstored.2.2⟩

theorem isRecordLine_iff {stored hash : Bytes} (h : verify_line build key prev line = some stored) :
    IsRecordLine build prev line hash ↔ hash = stored ∧ Closed line := by
  obtain ⟨-, hstored, hp, hhp, hhash⟩ := verify_line_some h
  constructor
  · rintro ⟨payload, rest, hrest, hline, hfound, hpayload⟩
    have htake : line.take (line.length - hp.length) = payload := by
      rw [← Option.some.inj (hhp.symm.trans hfound)] at hline
      simp [hline]
    rw [htake, hpayload, Option.some.injEq] at hhash
    exact ⟨hhash, rest, hrest, by rw [← hstored, ← hhash, hfound]⟩
  · rintro ⟨rfl, rest, hrest, hfound⟩
    rw [← hstored] at hfound
    obtain rfl := Option.some.inj (hhp.symm.trans hfound)
    obtain ⟨payload, hline⟩ := strstr_suffix hfound
    refine ⟨payload, rest, hrest, hline.symm, hfound, ?_⟩
    rw [← hhash, ← hline]
    simp

-- A NUL would hide the newline that the replay asks for, since a line has no other.
theorem cstr_of_newline (hline : newline ∉ line.dropLast) (h : (cstr line).getLast? = some newline) :
    cstr line = line := by
  obtain ⟨rest, hrest⟩ : cstr line <+: line := takeWhile_prefix _
  cases rest with
  | nil => simpa using hrest
  | cons c rest =>
    refine absurd ?_ hline
    rw [← hrest, dropLast_append_of_ne_nil (by simp)]
    exact mem_append_left _ (mem_of_getLast? h)

theorem newline_not_mem_dropLast (h : line ∈ fgetsAll AUDIT_LINE_MAX content) : newline ∉ line.dropLast := by
  obtain ⟨⟨b, x, rfl, hb⟩, -⟩ := mem_fgetsFrom (by decide) (by simp) (by decide) h
  rwa [dropLast_concat]

theorem verify_loop_chained (hlines : ∀ l ∈ lines, newline ∉ l.dropLast)
    (h : verify_loop build key prev count lines = some (n, last)) :
    n = count + lines.length ∧ (Chained build prev lines ↔ ∀ l ∈ lines, Closed l) := by
  induction lines generalizing prev count with
  | nil =>
    simp only [verify_loop, Option.some.injEq, Prod.mk.injEq] at h
    simp [Chained, ← h.1]
  | cons line lines ih =>
    rw [verify_loop] at h
    split at h
    · exact absurd h (by simp)
    · rename_i stored hverify
      obtain ⟨hn, hrest⟩ := ih (fun l hl => hlines l (mem_cons_of_mem _ hl)) h
      rw [cstr_of_newline (hlines line (by simp)) (verify_line_some hverify).1] at hverify
      refine ⟨by rw [hn, length_cons]; omega, ?_⟩
      simp only [Chained, isRecordLine_iff hverify, forall_mem_cons]
      constructor
      · rintro ⟨hash, ⟨rfl, hline⟩, hchain⟩
        exact ⟨hline, hrest.mp hchain⟩
      · rintro ⟨hline, hclosed⟩
        exact ⟨stored, ⟨rfl, hline⟩, hrest.mpr hclosed⟩

def quoted (s : Bytes) : Bytes := dquote :: (s.flatMap jesc_char ++ [dquote])

def stringText : JsonValue → Bytes
  | .string s => quoted s
  | _ => []

def argvText (args : List Bytes) : Bytes := joined [] quoted (args.map cstr)

theorem escape_jesc_char (c : UInt8) : Escape c (jesc_char c) := by
  unfold jesc_char
  split_ifs with hquote hctl
  · rcases hquote with rfl | rfl <;> exact .inl ⟨_, rfl, by decide⟩
  · exact .inr (.inl ⟨hctl, rfl⟩)
  · rw [not_or] at hquote
    exact .inr (.inr ⟨hquote.1, hquote.2, hctl, rfl⟩)

theorem strncat_take : strncat (cap + 1) (t.take cap) s = (t ++ s).take cap := by
  rw [strncat, take_append]
  congr 2
  rw [length_take]
  omega

theorem argv_loop_take (ht : t ≠ []) (h : argv_loop (t.take 1023) args = some out) :
    out = (t ++ if args.isEmpty then [] else comma :: argvText args).take 1023 := by
  induction args generalizing t with
  | nil =>
    simp only [argv_loop, Option.some.injEq] at h
    simp [← h]
  | cons s args ih =>
    simp only [argv_loop] at h
    split at h
    · exact absurd h (by simp)
    · rename_i one hone
      have hcut : t.take 1023 ≠ [] := by simpa using ht
      rw [if_pos hcut, strncat_take, strncat_take] at h
      rw [ih (by simp) h, jesc_some hone]
      simp only [isEmpty_cons, Bool.false_eq_true, if_false, argvText, map_cons, joined, quoted, isEmpty_map]
      simp

theorem argv_loop_eq (h : argv_loop [] args = some av) : av = (argvText args).take 1023 := by
  cases args with
  | nil =>
    simp only [argv_loop, Option.some.injEq] at h
    simp [← h, argvText, joined]
  | cons s args =>
    simp only [argv_loop] at h
    split at h
    · exact absurd h (by simp)
    · rename_i one hone
      have hone' := jesc_some hone
      rw [if_neg (by simp), ← take_nil, strncat_take] at h
      rw [argv_loop_take (by simp [hone']) h, hone']
      simp only [argvText, map_cons, joined, quoted, isEmpty_map]
      simp

theorem skip_quotes_snoc (hc : c ≠ dquote) (h : skip_quotes s = none) : skip_quotes (s ++ [c]) = none := by
  induction s using skip_quotes.induct with
  | case1 => simp [skip_quotes, hc]
  | case2 s => simp [skip_quotes_dquote] at h
  | case3 hb => simp [skip_quotes, hb]
  | case4 d s h1 ih =>
    simp only [skip_quotes_backslash, Option.map_eq_none_iff, cons_append] at h ⊢
    exact ih h
  | case5 c s h1 h2 ih =>
    simp only [skip_quotes_cons h1 h2, Option.map_eq_none_iff, cons_append] at h ⊢
    exact ih h

theorem get_quoted_string_cut (hn : n < (quoted s).length) :
    get_quoted_string ((quoted s).take n ++ [rbracket]) = none := by
  cases n with
  | zero => rfl
  | succ n =>
    have hopen : skip_quotes (s.flatMap jesc_char) = none := by
      have := skip_quotes_escaped escape_jesc_char s []
      rwa [append_nil] at this
    have hfront : (quoted s).take (n + 1) = dquote :: (s.flatMap jesc_char).take n := by
      simp only [quoted, length_cons, length_append, length_nil] at hn
      rw [quoted, take_succ_cons, take_append_of_le_length (by omega)]
    have hnone : skip_quotes ((s.flatMap jesc_char).take n) = none := by
      cases hskip : skip_quotes ((s.flatMap jesc_char).take n) with
      | none => rfl
      | some x =>
        have := (skip_quotes_append hskip ((s.flatMap jesc_char).drop n)).2
        rw [take_append_drop, hopen] at this
        exact absurd this (by simp)
    rw [hfront, cons_append, get_quoted_string, if_pos rfl, skip_quotes_snoc (by decide) hnone]
    rfl

theorem parse_value_quoted (hs : 0 ∉ s) : parse_value (depth + 1) (quoted s ++ t) = some (.string s, t) := by
  rw [quoted, cons_append, parse_value_dquote, append_assoc]
  exact congrArg _ (get_quoted_string_escaped escape_jesc_char hs t)

theorem parse_value_cut (hn : n < (quoted s).length) :
    parse_value (depth + 1) ((quoted s).take n ++ [rbracket]) = none := by
  have hcut := get_quoted_string_cut hn
  cases n with
  | zero => rfl
  | succ n =>
    rw [quoted, take_succ_cons, cons_append] at hcut ⊢
    rw [parse_value_dquote, hcut]
    rfl

theorem opens_quoted : Opens (quoted s) := ⟨dquote, _, rfl, by decide⟩

theorem skip_whitespaces_quoted : skip_whitespaces ((quoted s).take n ++ rbracket :: t) =
    (quoted s).take n ++ rbracket :: t := by
  cases n with
  | zero => rfl
  | succ n => exact skip_whitespaces_cons (by decide) _

theorem parse_items_cut (hs : ∀ s ∈ args, 0 ∉ s) (hn : n < (joined [] quoted args).length) (acc : List JsonValue)
    (r : Bytes) : parse_items (parse_value (depth + 1)) fuel
      (skip_whitespaces ((joined [] quoted args).take n ++ [rbracket])) acc ≠
        some (acc ++ args.map .string, r) := by
  induction args generalizing n fuel acc with
  | nil => simp [joined] at hn
  | cons s args ih =>
    cases fuel with
    | zero => simp [parse_items]
    | succ fuel =>
      rw [joined, nil_append] at hn ⊢
      by_cases hcut : n < (quoted s).length
      · rw [take_append_of_le_length hcut.le, skip_whitespaces_quoted]
        simp [parse_items, parse_value_cut hcut]
      · obtain ⟨m, rfl⟩ := Nat.exists_eq_add_of_le (not_lt.mp hcut)
        have hargs : args ≠ [] := by
          rintro rfl
          simp at hn
        have hskip : ∀ t, skip_whitespaces (quoted s ++ t) = quoted s ++ t := fun t =>
          skip_whitespaces_cons (by decide) _
        have hempty : args.isEmpty = false := by simpa using hargs
        rw [hempty] at hn ⊢
        simp only [Bool.false_eq_true, if_false, length_append, length_cons] at hn
        simp only [Bool.false_eq_true, if_false, take_length_add_append, append_assoc, hskip, parse_items,
          parse_value_quoted (hs s (by simp)), Option.bind_eq_bind, Option.bind_some]
        cases m with
        | zero => simpa [skip_whitespaces, (by decide : isspace rbracket = false), (by decide : rbracket ≠ comma)]
            using fun h _ => hargs h
        | succ m =>
          have hrest := @ih m fuel (fun x hx => hs x (mem_cons_of_mem _ hx)) (by omega) (acc ++ [.string s])
          rw [append_assoc, singleton_append] at hrest
          simpa only [take_succ_cons, cons_append,
            skip_whitespaces_cons (by decide : isspace comma = false), if_true, map_cons]
            using hrest

theorem argv_parses_iff (h : argv_loop [] args = some av) :
    json_parse_string (lbracket :: (av ++ [rbracket])) = some (.array (args.map fun a => .string (cstr a))) ↔
      (argvText args).length ≤ 1023 := by
  have hzero : ∀ s ∈ args.map cstr, 0 ∉ s := by
    intro s hs
    obtain ⟨a, -, rfl⟩ := mem_map.mp hs
    exact not_mem_zero_cstr a
  have hmap : args.map (fun a => JsonValue.string (cstr a)) = (args.map cstr).map .string := by
    rw [map_map]
    rfl
  have hparse : json_parse_string (lbracket :: (av ++ [rbracket])) =
      (parse_array_value (parse_value MAX_NESTING) (av ++ [rbracket])).map Prod.fst := by
    rw [json_parse_string, dropBom_cons (by decide), parse_value_lbracket]
  rw [hparse, hmap, argv_loop_eq h]
  constructor
  · intro hargs
    by_contra hlong
    rw [not_le] at hlong
    obtain ⟨⟨v, r⟩, hv, rfl⟩ := Option.map_eq_some_iff.mp hargs
    obtain ⟨u, hu⟩ : ∃ u, skip_whitespaces ((argvText args).take 1023 ++ [rbracket]) = dquote :: u := by
      cases args with
      | nil => simp [argvText, joined] at hlong
      | cons s args => exact ⟨_, skip_whitespaces_cons (by decide) _⟩
    rw [parse_array_value, hu] at hv
    simp only [if_neg (by decide : dquote ≠ rbracket), Option.map_eq_some_iff, Prod.exists, Prod.mk.injEq,
      JsonValue.array.injEq] at hv
    obtain ⟨a, r', hitems, rfl, rfl⟩ := hv
    rw [← hu] at hitems
    exact parse_items_cut hzero hlong [] r' hitems
  · intro hfits
    rw [take_of_length_le hfits]
    have hread : ∀ v ∈ (args.map cstr).map JsonValue.string, Opens (stringText v) ∧
        ReadsAs (parse_value MAX_NESTING) (fun _ => true) (stringText v) v := by
      intro v hv
      obtain ⟨s, hs, rfl⟩ := mem_map.mp hv
      exact ⟨opens_quoted, fun t _ => parse_value_quoted (hzero s hs)⟩
    have hparsed := parse_array_value_joined blank_nil blank_nil hread []
    rw [joined_map] at hparsed
    rw [argvText, show quoted = stringText ∘ JsonValue.string from rfl]
    simp only [nil_append] at hparsed
    rw [hparsed]
    simp

theorem audit_payload_of_appended {hash : Bytes}
    (h : enforce_audit_append build file c = (file', .appended hash)) :
    ∃ payload, audit_payload build c = some payload := by
  unfold enforce_audit_append at h
  split at h
  · simp at h
  · dsimp only at h
    split at h
    · simp at h
    · rename_i line hash' hrecord
      rw [audit_record] at hrecord
      obtain ⟨payload, hpayload, -⟩ := Option.bind_eq_some_iff.mp hrecord
      exact ⟨payload, hpayload⟩

/-- For a trail that verifies, its lines are records and nothing else exactly when each of them is closed behind
its hash. For an append that succeeds, the array in the payload says what the arguments were exactly when their
text fits the buffer. -/
theorem trail_authentic_iff (C : Crypto) (build : Build) :
    (∀ (key : Option C.PublicKey) (file : Option Bytes) (n : Nat) (last : Bytes),
      enforce_audit_verify build key file = some (n, last) →
        ((fgetsAll AUDIT_LINE_MAX (file.getD [])).length = n ∧
            Chained build (bytes "0") (fgetsAll AUDIT_LINE_MAX (file.getD [])) ↔
          ∀ line ∈ fgetsAll AUDIT_LINE_MAX (file.getD []), Closed line)) ∧
    ∀ (file file' : Option Bytes) (c : Call C) (hash : Bytes),
      enforce_audit_append build file c = (file', .appended hash) →
        ∃ front array, audit_payload build c = some (front ++ bytes "\"argv\":" ++ array ++ bytes "\x7d") ∧
          (json_parse_string array = some (.array ((c.argv.getD []).map fun a => .string (cstr a))) ↔
            (argvText (c.argv.getD [])).length ≤ 1023) := by
  constructor
  · intro key file n last h
    cases file with
    | none =>
      obtain ⟨rfl, -⟩ := Prod.mk.inj (Option.some.inj h)
      simp [fgetsAll, fgetsFrom, Chained]
    | some content =>
      obtain ⟨hn, hiff⟩ := verify_loop_chained (fun l hl => newline_not_mem_dropLast hl) h
      rw [Option.getD_some, ← hiff, hn, Nat.zero_add]
      exact and_iff_right rfl
  · intro file file' c hash h
    obtain ⟨payload, hpayload⟩ := audit_payload_of_appended h
    obtain ⟨av, hav, rfl, -⟩ := audit_payload_some hpayload
    refine ⟨bytes "\x7b\"ts\":" ++ fmtInt c.ts ++ bytes ",\"pid\":" ++ fmtInt c.pid ++ bytes ",\"digest\":\"" ++
      cstr c.digest ++ bytes "\",\"alg\":\"" ++ cstr (c.alg.getD (digest_alg build)) ++
        bytes "\",\"backends\":\"" ++
      cstr (c.backends.getD []) ++ bytes "\",", lbracket :: (av ++ [rbracket]), ?_, argv_parses_iff hav⟩
    rw [hpayload]
    simp [bytes]

def plainCall (args : List Bytes) : Call plainSignatures :=
  { ts := 1, pid := 7, digest := bytes "d1", alg := none, backends := none, argv := some args, g_sign_key := none,
    g_verify_key := none, opens := true, writes := true }

def openTrail : Bytes := bytes "x\x7b\"hash\":\"1a28c36b42e30955\"\x7d y\n"

theorem not_closed_openTrail : ¬ Closed openTrail := by
  rintro ⟨rest, hrest, hfound⟩
  have hend : bytes "\"\x7d\n" <:+ rest := by
    rcases hrest with rfl | ⟨sig, -, rfl⟩
    · exact suffix_rfl
    · exact suffix_append _ _
  exact absurd (hend.trans ((suffix_append _ _).trans (strstr_suffix hfound))) (by decide)

theorem appended_plainCall (hav : argv_loop [] args = some av) :
    ∃ file hash, enforce_audit_append none none (plainCall args) = (file, .appended hash) := by
  have hlen : av.length ≤ 1023 := by
    rw [argv_loop_eq hav]
    exact length_take_le _ _
  obtain ⟨payload, hpayload, hshort⟩ : ∃ payload, audit_payload none (plainCall args) = some payload ∧
      payload.length < 2048 := by
    simp only [audit_payload, plainCall, Option.getD_some, hav]
    refine ⟨_, if_neg (not_le.mpr ?_), ?_⟩
    all_goals
      rw [length_append, length_append]
      exact lt_of_le_of_lt (Nat.add_le_add_right (Nat.add_le_add (by decide : _ ≤ 100) hlen) _) (by decide)
  let hash := fmtHex16 (fnv1a64 payload (fnv1a64 (bytes "0") 0xcbf29ce484222325))
  let line := payload ++ (HASH_MARKER ++ hash ++ bytes "\"\x7d\n")
  have hfits : ¬ AUDIT_LINE_MAX ≤ line.length := by
    have hend : (HASH_MARKER ++ hash ++ bytes "\"\x7d\n").length = 28 := by
      rw [length_append, length_append, fmtHex16_length]
      rfl
    rw [length_append, hend, AUDIT_LINE_MAX]
    omega
  have hrecord : audit_record none (bytes "0") (plainCall args) = some (line, hash) := by
    simp only [audit_record, hpayload, enforce_audit_hash, audit_tail, loaded, Option.isSome_none,
      Bool.false_eq_true, if_false, Option.bind_eq_bind, Option.bind_some]
    exact if_neg hfits
  have hchain : verify_chain none (plainCall args).g_verify_key none = some (0, []) := rfl
  refine ⟨some line, hash, ?_⟩
  simp only [enforce_audit_append, hchain, ne_eq, not_true_eq_false, if_false, hrecord]
  rfl

/-- The line that an append of `ls` leaves in a new trail. -/
def lsTrail : Bytes :=
  bytes "\x7b\"ts\":1,\"pid\":7,\"digest\":\"d1\",\"alg\":\"fnv1a64\",\"backends\":\"\",\"argv\":[\"ls\"]\x7d" ++
    bytes "\x7b\"hash\":\"79ac6af867186d48\"\x7d\n"

theorem trail_authentic_ls :
    enforce_audit_append none none (plainCall [bytes "ls"]) =
      (some lsTrail, .appended (bytes "79ac6af867186d48")) ∧
      Chained none (bytes "0") [lsTrail] ∧
      ∃ front array, audit_payload none (plainCall [bytes "ls"]) =
          some (front ++ bytes "\"argv\":" ++ array ++ bytes "\x7d") ∧
        json_parse_string array = some (.array [.string (bytes "ls")]) := by
  obtain ⟨hverify, happend⟩ := trail_authentic_iff plainSignatures none
  have hlines : fgetsAll AUDIT_LINE_MAX lsTrail = [lsTrail] := by decide +kernel
  have hchained := hverify none (some lsTrail) 1 (bytes "79ac6af867186d48") (by decide +kernel)
  have happended : enforce_audit_append none none (plainCall [bytes "ls"]) =
      (some lsTrail, .appended (bytes "79ac6af867186d48")) := by decide +kernel
  obtain ⟨front, array, hpayload, hargv⟩ := happend none _ _ _ happended
  rw [Option.getD_some, hlines] at hchained
  refine ⟨happended, (hchained.mpr ?_).2, front, array, hpayload, hargv.mpr (by decide)⟩
  rintro line hline
  rw [mem_singleton.mp hline]
  exact ⟨_, .inl rfl, by decide +kernel⟩

theorem argv_loop_replicate (n : Nat) (av : Bytes) : ∃ out, argv_loop av (replicate n []) = some out := by
  induction n generalizing av with
  | zero => exact ⟨av, rfl⟩
  | succ n ih => exact ih _

def manyArguments : List Bytes := replicate 512 []

theorem argvText_manyArguments : 1023 < (argvText manyArguments).length := by decide +kernel

/-- A line with text behind its hash object verifies. An append with 512 empty arguments succeeds, and its array
breaks off behind a comma. -/
theorem open_trail_verifies :
    (enforce_audit_verify (C := plainSignatures) none none (some openTrail) = some (1, bytes "1a28c36b42e30955") ∧
      ¬ Chained none (bytes "0") (fgetsAll AUDIT_LINE_MAX openTrail)) ∧
    ∃ file hash av, enforce_audit_append none none (plainCall manyArguments) = (file, .appended hash) ∧
      argv_loop [] manyArguments = some av ∧
      json_parse_string (lbracket :: (av ++ [rbracket])) ≠
        some (.array (manyArguments.map fun a => .string (cstr a))) := by
  have hverify : enforce_audit_verify (C := plainSignatures) none none (some openTrail) =
      some (1, bytes "1a28c36b42e30955") := by decide +kernel
  have hlines : fgetsAll AUDIT_LINE_MAX openTrail = [openTrail] := by decide +kernel
  refine ⟨⟨hverify, fun hchained => ?_⟩, ?_⟩
  · have hclosed := (verify_loop_chained (fun l hl => newline_not_mem_dropLast hl) hverify).2.mp hchained
    exact not_closed_openTrail (hclosed openTrail (by simp [hlines]))
  · obtain ⟨av, hav⟩ := argv_loop_replicate 512 []
    obtain ⟨file, hash, happended⟩ := appended_plainCall hav
    exact ⟨file, hash, av, happended, hav, fun hparsed =>
      argvText_manyArguments.not_ge ((argv_parses_iff hav).mp hparsed)⟩

end Retrace.Enforce
