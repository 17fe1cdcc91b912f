import Retrace.Journal.Restart
import Retrace.Json.Proofs.RenderProofs
import Retrace.CLib.Proofs.StdioProofs

/-!
# The lines the writer makes are records

`journal_line` puts an event into one line. When the agent's id needs no escape and the payload is the
text of an object without newline and NUL, that line is a record: it reads back as one line and as an
object, and both ways to find its link find it.
-/

namespace Retrace.Retraced

open CLib Parson HashChain List

def payloadText (payload : Option Bytes) : Bytes := cstr (payload.getD (bytes "\x7b\x7d"))

def journalMembers (ts : Int64) (agent_id : Bytes) (seq prev_hash : UInt64) (payload : Bytes) :
    List (Bytes × Bytes) :=
  [(bytes "ts", fmtInt ts.toInt), (bytes "agent", quoted agent_id),
   (bytes "seq", fmtNat seq.toNat), (bytes "prev", quoted (fmtHex16 prev_hash)),
   (bytes "ev", payload)]

theorem journal_line_eq (ts : Int64) (agent_id : Bytes) (seq prev_hash : UInt64) (payload : Option Bytes) :
    journal_line ts agent_id seq prev_hash payload =
      renderObject (journalMembers ts (cstr agent_id) seq prev_hash (payloadText payload)) ++ [newline] := by
  simp [journal_line, renderObject, renderMembers, renderMember, quoted, journalMembers, payloadText, bytes]

theorem payloadText_ok {payload : Option Bytes} (hp : PayloadOk payload) :
    ObjectText (payloadText payload) ∧ Inline (payloadText payload) := by
  cases payload with
  | none => exact ⟨⟨[], [], rfl, rfl⟩, by decide⟩
  | some p =>
    obtain ⟨hobj, hin⟩ := hp p rfl
    have htext : payloadText (some p) = p := hin.cstr
    rw [htext]
    exact ⟨hobj, hin⟩

section

variable (ts : Int64) {agent_id : Bytes} (seq prev_hash : UInt64) {payload : Bytes}

theorem strstr_prev_marker_line (ha : Plain agent_id) :
    ∃ t, strstr (renderObject (journalMembers ts agent_id seq prev_hash payload) ++ [newline])
      prev_marker = some (prev_marker ++ (fmtHex16 prev_hash ++ t)) := by
  have hts : dquote ∉ colon :: (fmtInt ts.toInt ++ [comma]) := by
    simpa [(fmtInt_plain _).not_mem_dquote] using (by decide : dquote ≠ colon ∧ dquote ≠ comma)
  have hseq : dquote ∉ colon :: (fmtNat seq.toNat ++ [comma]) := by
    simpa [(fmtNat_plain _).not_mem_dquote] using (by decide : dquote ≠ colon ∧ dquote ≠ comma)
  have hcolon : ∀ s : Bytes, colon :: s ≠ bytes "prev" := fun s h => absurd (cons.inj h).1 (by decide)
  set tail := dquote :: comma :: (renderMember (bytes "ev", payload) ++ [rbrace, newline]) with htail
  set front := [bytes "ts", colon :: (fmtInt ts.toInt ++ [comma]), bytes "agent", [colon]] with hfront
  set mid := [[comma], bytes "seq", colon :: (fmtNat seq.toNat ++ [comma])] with hmid
  set s := mid.flatMap (dquote :: ·) ++ (prev_marker ++ (fmtHex16 prev_hash ++ tail)) with hs
  have hline : renderObject (journalMembers ts agent_id seq prev_hash payload) ++ [newline] =
      [lbrace] ++ (front.flatMap (dquote :: ·) ++ dquote :: (agent_id ++ s)) := by
    simp [hs, hfront, hmid, htail, renderObject, renderMembers, renderMember, journalMembers, quoted, prev_marker,
      bytes]
  refine ⟨tail, ?_⟩
  calc strstr (renderObject (journalMembers ts agent_id seq prev_hash payload) ++ [newline]) prev_marker
      = strstr (front.flatMap (dquote :: ·) ++ dquote :: (agent_id ++ s)) prev_marker := by
        rw [hline]
        exact strstr_skip (by decide) _ _
    _ = strstr (dquote :: (agent_id ++ s)) prev_marker :=
        strstr_skip_pieces (w := bytes "prev") (t := [colon, dquote]) (by decide) _ _
          (by simp [hfront, hts, hcolon]; decide)
    -- The id may be the word as well, but a comma follows it.
    _ = strstr (agent_id ++ s) prev_marker :=
        strstr_cons_of_not (not_prefix_quoted (w := bytes "prev") (t := [dquote]) (by decide) ha.not_mem_dquote
          (by decide : colon ≠ comma))
    _ = strstr s prev_marker := strstr_skip ha.not_mem_dquote _ _
    _ = strstr (prev_marker ++ (fmtHex16 prev_hash ++ tail)) prev_marker :=
        strstr_skip_pieces (w := bytes "prev") (t := [colon, dquote]) (by decide) _ _
          (by simp [hmid, hseq, hcolon]; decide)
    _ = some (prev_marker ++ (fmtHex16 prev_hash ++ tail)) := strstr_self _ _

theorem text_prev_line (ha : Plain agent_id) :
    text_prev (renderObject (journalMembers ts agent_id seq prev_hash payload) ++ [newline]) = some prev_hash := by
  obtain ⟨t, ht⟩ := strstr_prev_marker_line ts seq prev_hash ha
  have hdrop : (prev_marker ++ (fmtHex16 prev_hash ++ t)).drop 8 = fmtHex16 prev_hash ++ t :=
    drop_left' rfl
  have htake : (snprintf 32 (fmtHex16 prev_hash ++ t)).take 16 = fmtHex16 prev_hash := by
    rw [snprintf, take_take, take_append_of_le_length (by simp), take_of_length_le (by simp)]
  rw [text_prev, ht, Option.map_some, hdrop, htake, strtoull16_fmtHex16]

theorem natAbs_toInt_lt : ts.toInt.natAbs < 2 ^ 64 := by
  have := ts.toInt_lt
  have := ts.le_toInt
  omega

theorem parse_line (ha : Plain agent_id) (hp : ObjectText payload)
    (hlen : payload.length ≤ MAX_NESTING) (t : Bytes) :
    ∃ o, json_parse_string (renderObject (journalMembers ts agent_id seq prev_hash payload) ++ t) =
      some (.object o) ∧
      json_object_get_string (some o) (bytes "prev") = some (fmtHex16 prev_hash) ∧
      json_object_get_string (some o) (bytes "agent") = some agent_id ∧
      json_object_get_number (some o) (bytes "seq") = roundDouble seq.toNat := by
  have h1 := reads_fmtInt (natAbs_toInt_lt ts)
  have h2 := reads_fmtNat seq.toNat_lt
  obtain ⟨o, ho⟩ := hp.reads
  refine ⟨[(bytes "ts", .number (roundDouble ts.toInt)), (bytes "agent", .string agent_id),
    (bytes "seq", .number (roundDouble seq.toNat)), (bytes "prev", .string (fmtHex16 prev_hash)),
    (bytes "ev", .object o)], ?_, rfl, rfl, rfl⟩
  have hkeys : ([bytes "ts", bytes "agent", bytes "seq", bytes "prev", bytes "ev"]).Nodup := by
    decide
  refine json_parse_string_render ?_ (by simp [journalMembers]) (by exact hkeys) t
  refine .cons ⟨rfl, ?_, h1 _⟩ (.cons ⟨rfl, ?_, reads_quoted ha _⟩ (.cons ⟨rfl, ?_, h2 _⟩
    (.cons ⟨rfl, ?_, reads_quoted (fmtHex16_plain _) _⟩ (.cons ⟨rfl, ?_, ho _ hlen⟩ .nil))))
  all_goals simp only
  all_goals decide

end

theorem recordLine_journal_line {ts : Int64} {agent_id : Bytes} {seq prev_hash : UInt64}
    {payload : Option Bytes} (ha : Plain agent_id) (hp : PayloadOk payload)
    (hlen : (journal_line ts agent_id seq prev_hash payload).length < 2048) :
    RecordLine prev_hash (journal_line ts agent_id seq prev_hash payload) := by
  obtain ⟨hobj, hin⟩ := payloadText_ok hp
  have heq := journal_line_eq ts agent_id seq prev_hash payload
  rw [ha.cstr] at heq
  rw [heq] at hlen ⊢
  have hplen : (payloadText payload).length ≤ MAX_NESTING := by
    simp [renderObject, renderMembers, renderMember, journalMembers] at hlen
    rw [MAX_NESTING]
    omega
  have hinline : Inline (renderObject (journalMembers ts agent_id seq prev_hash (payloadText payload))) := by
    apply inline_renderObject
    simp only [journalMembers, forall_mem_cons, not_mem_nil, false_imp_iff, implies_true, and_true]
    exact ⟨⟨by decide, (fmtInt_plain _).inline⟩, ⟨by decide, inline_quoted ha.inline⟩,
      ⟨by decide, (fmtNat_plain _).inline⟩, ⟨by decide, inline_quoted (fmtHex16_plain _).inline⟩,
      by decide, hin⟩
  have hnul : 0 ∉ renderObject (journalMembers ts agent_id seq prev_hash (payloadText payload)) ++
      [newline] := by
    simpa [hinline.not_mem_zero] using (by decide : (0 : UInt8) ≠ newline)
  obtain ⟨o, ho, hprev⟩ := parse_line ts seq prev_hash ha hobj hplen [newline]
  refine ⟨⟨_, rfl, hinline.not_mem_newline, hlen⟩, hnul, ⟨o, ho⟩, ?_, ?_⟩
  · simp [seeRecord, cstr_eq_self hnul, ho, json_value_get_object, hprev, strtoull16_fmtHex16]
  · simp [seeText, cstr_eq_self hnul, text_prev_line ts seq prev_hash ha]

end Retrace.Retraced
