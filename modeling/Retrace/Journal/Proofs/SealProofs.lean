import Retrace.Journal.Seal
import Retrace.Journal.Proofs.LiveReadProofs
import Retrace.Journal.Proofs.ShutdownProofs

/-!
# Seals verify

A shutdown with a key appends the close record and, when the file is a chain, a seal of its head. The
check of the sealed file succeeds exactly when the seal carries the head it seals, and a check that
succeeds has seen a signature of the chain in front of the last line.
-/

namespace Retrace.Retraced

open CLib HashChain Runs List Option

variable {line pem : Bytes} {n : Nat} {content : Bytes} {fs : FS} {path : Path}

attribute [local irreducible] retraced_journal_line_hash journal_line

section

variable (C : Crypto) (ts : Int64) (h : UInt64) (sig : Bytes) (head : UInt64) (lines : Nat)

def seal_line : Bytes := journal_line ts daemon_id 0 h (some (seal_text C sig head lines))

def sealFront : List Bytes :=
  [bytes "ts", bytes ":" ++ fmtInt ts.toInt ++ bytes ",", bytes "agent", bytes ":", bytes "daemon",
    bytes ",", bytes "seq", bytes ":0,", bytes "prev", bytes ":", fmtHex16 h, bytes ",", bytes "ev",
    bytes ":\x7b", bytes "name", bytes ":", bytes "retrace.journal.signed", bytes ",", bytes "alg",
    bytes ":", bytes "ed25519", bytes ",", bytes "key_id", bytes ":",
    fmtHex2 (sig.getD 0 0) ++ fmtHex2 (sig.getD 1 0), bytes ","]

def sealSig : Bytes := bytes ":" ++ dquote :: (C.encodeBlock sig ++ dquote :: bytes "\x7d\x7d\n")

def sealLines : Bytes :=
  bytes ":" ++ (fmtNat lines ++ (bytes "," ++ dquote :: (bytes "sig" ++ dquote :: sealSig C sig)))

def sealHead : Bytes :=
  bytes ":" ++ dquote :: (fmtHex16 head ++ dquote :: (bytes "," ++ dquote :: (bytes "lines" ++
    dquote :: sealLines C sig lines)))

variable {C sig lines} (hC : EncodesBase64 C)

theorem sealFront_ok (hw : w = bytes "head" ∨ w = bytes "lines" ∨ w = bytes "sig") :
    ∀ p ∈ sealFront ts h sig, dquote ∉ p ∧ p ≠ w := by
  have htime : dquote ∉ bytes ":" ++ fmtInt ts.toInt ++ bytes "," := by
    simpa [(fmtInt_plain _).not_mem_dquote] using (by decide : dquote ∉ bytes ":" ∧ dquote ∉ bytes ",")
  have hkey : Plain (fmtHex2 (sig.getD 0 0) ++ fmtHex2 (sig.getD 1 0)) :=
    (plain_append _ _).mpr ⟨fmtHex2_plain _, fmtHex2_plain _⟩
  have hhexw : fmtHex16 h ≠ w := fmtHex16_ne (by rcases hw with rfl | rfl | rfl <;> decide) h
  have htimew : bytes ":" ++ fmtInt ts.toInt ++ bytes "," ≠ w := by
    intro heq
    have := congrArg List.head? heq
    rcases hw with rfl | rfl | rfl <;> simp [bytes] at this
  -- An `h`, an `l` and an `s` are no hexadecimal digits.
  have hkeyw : fmtHex2 (sig.getD 0 0) ++ fmtHex2 (sig.getD 1 0) ≠ w := by
    intro heq
    obtain ⟨c, hc, hnot⟩ : ∃ c ∈ w, isxdigit c = false := by
      rcases hw with rfl | rfl | rfl
      · exact ⟨104, by decide, by decide⟩
      · exact ⟨108, by decide, by decide⟩
      · exact ⟨115, by decide, by decide⟩
    rw [← heq, mem_append] at hc
    rcases hc with hc | hc <;> obtain ⟨d, hd, rfl⟩ := mem_hexFixed hc <;>
      exact absurd hnot (by simp [(hexDigit_spec d hd).2.1])
  simp only [sealFront, forall_mem_cons, not_mem_nil, false_imp_iff, implies_true, and_true]
  refine ⟨?_, ⟨htime, htimew⟩, ?_, ?_, ?_, ?_, ?_, ?_, ?_, ?_, ⟨(fmtHex16_plain h).not_mem_dquote, hhexw⟩,
    ?_, ?_, ?_, ?_, ?_, ?_, ?_, ?_, ?_, ?_, ?_, ?_, ?_, ⟨hkey.not_mem_dquote, hkeyw⟩, ?_⟩
  all_goals rcases hw with rfl | rfl | rfl <;> decide

include hC in
theorem seal_line_eq (hlines : lines < 2 ^ 64) (hlen : (seal_text C sig head lines).length < 512) :
    seal_line C ts h sig head lines = bytes "\x7b" ++ ((sealFront ts h sig).flatMap (dquote :: ·) ++
        dquote :: (bytes "head" ++ dquote :: sealHead C sig head lines)) := by
  obtain ⟨-, hin⟩ := payloadOk_seal hC sig hlines hlen _ rfl
  have henc := encodeBlock_plain hC sig
  have hid : cstr daemon_id = bytes "daemon" := rfl
  have hzero : fmtNat 0 = bytes "0" := rfl
  rw [seal_line, journal_line, getD_some, hin.cstr]
  simp [seal_text, henc.cstr, hid, hzero, bytes, dquote, sealFront, sealHead, sealLines, sealSig]

include hC in
theorem strstr_seal (hlines : lines < 2 ^ 64) (hlen : (seal_text C sig head lines).length < 512) :
    strstr (seal_line C ts h sig head lines) (bytes "\"head\":\"") =
        some (bytes "\"head\"" ++ sealHead C sig head lines) ∧
      strstr (seal_line C ts h sig head lines) (bytes "\"lines\":") =
        some (bytes "\"lines\"" ++ sealLines C sig lines) ∧
      strstr (seal_line C ts h sig head lines) (bytes "\"sig\":\"") = some (bytes "\"sig\"" ++ sealSig C sig) := by
  have hhead : dquote ∉ fmtHex16 head := (fmtHex16_plain head).not_mem_dquote
  have hcount : dquote ∉ bytes ":" ++ (fmtNat lines ++ bytes ",") := by
    simpa [(fmtNat_plain _).not_mem_dquote] using (by decide : dquote ∉ bytes ":" ∧ dquote ∉ bytes ",")
  have hcountw : bytes ":" ++ (fmtNat lines ++ bytes ",") ≠ bytes "sig" := by
    intro heq
    have := congrArg List.head? heq
    simp [bytes] at this
  have hfront : ∀ {w : Bytes} (t : Bytes), w = bytes "head" ∨ w = bytes "lines" ∨ w = bytes "sig" →
      strstr (seal_line C ts h sig head lines) (dquote :: (w ++ dquote :: t)) =
        strstr (dquote :: (bytes "head" ++ dquote :: sealHead C sig head lines))
          (dquote :: (w ++ dquote :: t)) := by
    intro w t hw
    rw [seal_line_eq ts h head hC hlines hlen, strstr_skip (by decide)]
    exact strstr_skip_pieces (by rcases hw with rfl | rfl | rfl <;> decide) _ _ (sealFront_ok ts h hw)
  have hmiddle : ∀ {w : Bytes} (t : Bytes), w = bytes "lines" ∨ w = bytes "sig" →
      strstr (seal_line C ts h sig head lines) (dquote :: (w ++ dquote :: t)) =
        strstr (dquote :: (bytes "lines" ++ dquote :: sealLines C sig lines)) (dquote :: (w ++ dquote :: t)) := by
    intro w t hw
    have hskip := strstr_skip_pieces (t := t) (w := w) (by rcases hw with rfl | rfl <;> decide)
      [bytes "head", bytes ":", fmtHex16 head, bytes ","] (bytes "lines" ++ dquote :: sealLines C sig lines) ?_
    · rw [hfront t (.inr hw)]
      simpa [sealHead] using hskip
    · have hheadw : fmtHex16 head ≠ w := fmtHex16_ne (by rcases hw with rfl | rfl <;> decide) head
      simp only [forall_mem_cons, not_mem_nil, false_imp_iff, implies_true, and_true]
      refine ⟨?_, ?_, ⟨hhead, hheadw⟩, ?_⟩
      all_goals rcases hw with rfl | rfl <;> decide
  have hneedles : bytes "\"head\":\"" = dquote :: (bytes "head" ++ dquote :: [colon, dquote]) ∧
      bytes "\"lines\":" = dquote :: (bytes "lines" ++ dquote :: [colon]) ∧
      bytes "\"sig\":\"" = dquote :: (bytes "sig" ++ dquote :: [colon, dquote]) := by decide
  have hfound : ∀ {w t rest : Bytes}, t <+: rest →
      strstr (dquote :: (w ++ dquote :: rest)) (dquote :: (w ++ dquote :: t)) =
        some (dquote :: (w ++ [dquote]) ++ rest) := by
    rintro w t - ⟨u, rfl⟩
    simpa using strstr_self (dquote :: (w ++ dquote :: t)) u
  have hcolon : bytes ":" = [colon] := by decide
  rw [hneedles.1, hneedles.2.1, hneedles.2.2]
  refine ⟨?_, ?_, ?_⟩
  · rw [hfront _ (.inl rfl), hfound (by simp [sealHead, hcolon])]
    rfl
  · rw [hmiddle _ (.inl rfl), hfound (by simp [sealLines, hcolon])]
    rfl
  · have hword : bytes "\"sig\"" = dquote :: (bytes "sig" ++ [dquote]) := by decide
    have hskip := strstr_skip_pieces (t := [colon, dquote]) (w := bytes "sig") (by decide)
      [bytes "lines", bytes ":" ++ (fmtNat lines ++ bytes ",")] (bytes "sig" ++ dquote :: sealSig C sig) ?_
    · rw [hfound (by simp [sealSig, hcolon])] at hskip
      rw [hmiddle _ (.inr rfl)]
      simpa [sealLines, hword] using hskip
    · simpa [hcount, hcountw] using (by decide : dquote ∉ bytes "lines" ∧ bytes "lines" ≠ bytes "sig")

end

theorem chain_loop_linked (hl : Linked (Carries seeText) lineLink 0 ls) :
    chain_loop 0 ls 0 0 = ⟨0, headOf lineLink 0 ls, ls.length, 0⟩ := by
  rw [chain_loop_spec, walk_linked hl]
  simp

theorem chain_loop_stop (hstop : stop_at ≠ 0)
    (hl : Linked (Carries seeText) lineLink h ls) (hn : n + ls.length = stop_at) (rest : List Bytes) :
    chain_loop stop_at (ls ++ rest) h n = ⟨0, headOf lineLink h ls, stop_at, 0⟩ := by
  induction ls generalizing h n with
  | nil =>
    obtain rfl : n = stop_at := by simpa using hn
    cases rest with
    | nil => rfl
    | cons c rest => simp [chain_loop, hstop]
  | cons l ls ih =>
    obtain ⟨hcarry, hrest⟩ := hl
    have hlink : text_prev (cstr l) = some h := by
      unfold Carries seeText at hcarry
      split at hcarry
      · cases hcarry
      · rename_i v hv
        rw [hv, Seen.link.inj hcarry]
    have hlt : ¬ (stop_at ≠ 0 ∧ stop_at ≤ n) := by
      simp only [length_cons] at hn
      omega
    simp only [cons_append, chain_loop, if_neg hlt, hlink, if_true]
    exact ih hrest (by simp only [length_cons] at hn; omega)

theorem linked_of_verify_ok {pubkey_path : Path}
    (hc : fs path = some content) (hok : (retraced_journal_verify_file C fs path pubkey_path).ok = true) :
    Linked (Carries seeText) lineLink 0 (journal_chunks content) := by
  rw [← chain_file_ret_iff hc]
  by_contra hret
  simp only [retraced_journal_verify_file, ne_eq, hret, not_false_eq_true, if_true] at hok
  cases hok

theorem chunks_length_le (content : Bytes) : (journal_chunks content).length ≤ content.length := by
  have hflat := congrArg List.length (flatten_fgetsAll 2048 content)
  have hpos : ∀ c ∈ fgetsAll 2048 content, 1 ≤ c.length := fun c hc =>
    length_pos_iff.mpr (ne_nil_of_mem_fgetsAll (by norm_num) hc)
  rw [length_flatten] at hflat
  have hsum := card_nsmul_le_sum ((fgetsAll 2048 content).map List.length) 1 (by simpa using hpos)
  simp only [length_map, smul_eq_mul, mul_one] at hsum
  exact hsum.trans hflat.le

theorem seal_message_eq (head : UInt64) (hn : n < 2 ^ 64) : seal_message (fmtHex16 head) (fmtNat n) =
      bytes "head=" ++ fmtHex16 head ++ bytes " lines=" ++ fmtNat n := by
  have hlen : (fmtNat n).length ≤ 20 := fmtNat_length_le (by norm_num) (by omega)
  rw [seal_message, (fmtHex16_plain head).cstr, snprintf_eq_self]
  simp only [length_append, fmtHex16_length, (by decide : (bytes "head=").length = 5),
    (by decide : (bytes " lines=").length = 7)]
  omega

theorem fmtInt_natCast : fmtInt n = fmtNat n := by
  simp [fmtInt]

theorem strtol10_bounds (s : Bytes) : -2 ^ 63 ≤ strtol10 s ∧ strtol10 s < 2 ^ 63 := by
  simp only [strtol10]
  split_ifs <;> omega

theorem verify_signature_ok {next : SealVerdict} : (verify_signature C fs pubkey_path found next).ok = true ↔
      ∃ pem pub sig sig_len, fs pubkey_path = some pem ∧ C.readPublicKey pem = some pub ∧
        pull_b64 C found.line = some (sig, sig_len) ∧ C.verifyInit pub = true ∧
        C.digestVerify pub sig sig_len (seal_message found.head_hex (fmtInt found.lines_sealed)) = true ∧
        next.ok = true := by
  unfold verify_signature
  constructor
  · intro h
    split at h
    · cases h
    · rename_i pem hpem
      split at h
      · cases h
      · rename_i pub hpub
        split at h
        · cases h
        · rename_i sig sig_len hsig
          split_ifs at h with hinit hver
          · cases h
          · cases h
          exact ⟨pem, pub, sig, sig_len, hpem, hpub, hsig, by simpa using hinit, by simpa using hver, h⟩
  · rintro ⟨pem, pub, sig, sig_len, hpem, hpub, hsig, hinit, hver, hnext⟩
    simp only [hpem, hpub, hsig, hinit, hver, Bool.not_true, Bool.false_eq_true, if_false, hnext]

theorem verify_sealed_head_ok (hc : fs path = some content)
    (hl : Linked (Carries seeText) lineLink 0 (journal_chunks content))
    (htwo : 2 ≤ (journal_chunks content).length) (head_hex : Bytes) :
    (verify_sealed_head fs path (journal_chunks content).length head_hex).ok = true ↔
      head_hex = fmtHex16 (headOf lineLink 0 (journal_chunks content).dropLast) := by
  have hne : journal_chunks content ≠ [] := length_pos_iff.mp (by omega)
  have hsplit := dropLast_append_getLast hne
  have hfront : Linked (Carries seeText) lineLink 0 (journal_chunks content).dropLast := by
    rw [← hsplit, linked_append] at hl
    exact hl.1
  have hchain : retraced_journal_chain_file fs path ((journal_chunks content).length - 1) =
      ⟨0, headOf lineLink 0 (journal_chunks content).dropLast, (journal_chunks content).length - 1, 0⟩ := by
    have hpos : (journal_chunks content).length - 1 ≠ 0 := by omega
    have hstop := chain_loop_stop hpos hfront (n := 0) (by simp) [(journal_chunks content).getLast hne]
    rw [hsplit] at hstop
    simp only [retraced_journal_chain_file, retraced_journal_chain_file_from, hc, hstop]
  simp only [verify_sealed_head, hchain, ne_eq, not_true_eq_false, if_false]
  split_ifs with h
  · simp [SealVerdict.ok, h]
  · simp [SealVerdict.ok, h]

theorem chain_file_linked (hc : fs path = some content)
    (hl : Linked (Carries seeText) lineLink 0 (journal_chunks content)) : retraced_journal_chain_file fs path 0 =
      ⟨0, headOf lineLink 0 (journal_chunks content), (journal_chunks content).length, 0⟩ := by
  simp only [retraced_journal_chain_file, retraced_journal_chain_file_from, hc, chain_loop_linked hl]

theorem sealValid_of_verify_ok (hc : fs path = some content) (hsize : content.length < 2 ^ 63)
    (htwo : 2 ≤ (journal_chunks content).length)
    (hok : (retraced_journal_verify_file C fs path pubkey_path).ok = true) :
    ∃ pem pub, fs pubkey_path = some pem ∧ C.readPublicKey pem = some pub ∧ SealValid C pub content := by
  have hl := linked_of_verify_ok hc hok
  have hcount := chunks_length_le content
  simp only [retraced_journal_verify_file, chain_file_linked hc hl, ne_eq, not_true_eq_false, if_false] at hok
  rw [if_neg (by omega)] at hok
  cases hseal : read_seal fs path with
  | none =>
    simp only [hseal] at hok
    cases hok
  | some found =>
    simp only [hseal] at hok
    split_ifs at hok with hsealed
    · simp only [read_seal, hc, bind_eq_bind, bind_some, bind_eq_some_iff, some.injEq] at hseal
      obtain ⟨line, hline, h, -, l, -, rfl⟩ := hseal
      obtain ⟨pem, pub, sig, sig_len, hpem, hpub, hsig, -, hver, hnext⟩ := verify_signature_ok.mp hok
      simp only at hsig hver hnext hsealed
      rw [verify_sealed_head_ok hc hl htwo] at hnext
      have hbounds := strtol10_bounds (l.drop 8)
      have hlines : strtol10 (l.drop 8) = ((journal_chunks content).length - 1 : Nat) := by omega
      rw [hnext, hlines, fmtInt_natCast, seal_message_eq _ (by omega)] at hver
      exact ⟨pem, pub, hpem, hpub, line, sig, sig_len, hline, hsig, hver⟩
    · cases hok

theorem base64_pad_eq (hbody : 61 ∉ body) (hk : k ≤ 2) : base64_pad (body ++ replicate k 61) = k := by
  have hrest : ((body.reverse).take (2 - k)).takeWhile (· = 61) = [] := by
    rw [takeWhile_eq_nil_iff]
    intro hpos
    have hmem : ((body.reverse).take (2 - k))[0] ∈ body :=
      mem_reverse.mp (mem_of_mem_take (getElem_mem hpos))
    rw [decide_eq_true_eq]
    intro heq
    exact hbody (heq ▸ hmem)
  have hone : ∀ x ∈ replicate k (61 : UInt8), decide (x = 61) = true := fun x hx => by
    simp [eq_of_mem_replicate hx]
  rw [base64_pad, reverse_append, reverse_replicate, take_append, length_replicate,
    take_of_length_le (by simpa using hk), takeWhile_append_of_pos hone, hrest]
  simp

section

variable {C : Crypto} {ts : Int64} {h : UInt64} {sig : Bytes} {head : UInt64} {lines : Nat}

theorem seal_text_length (hC : Base64 C) (hsig : sig.length = 64) (hlines : lines < 2 ^ 64) :
    (seal_text C sig head lines).length < 512 := by
  have henc := hC.length sig
  rw [hsig] at henc
  have hnum : (fmtNat lines).length ≤ 20 := fmtNat_length_le (by norm_num) (by omega)
  have hkey : ∀ b, (fmtHex2 b).length = 2 := fun b => hexFixed_length 2 b.toNat
  rw [seal_text, (encodeBlock_plain hC.alphabet sig).cstr]
  simp only [length_append, henc, fmtHex16_length, hkey,
    (by decide : (bytes "\x7b\"name\":\"retrace.journal.signed\",\"alg\":\"ed25519\",\"key_id\":\"").length = 59),
    (by decide : (bytes "\",\"head\":\"").length = 10), (by decide : (bytes "\",\"lines\":").length = 10),
    (by decide : (bytes ",\"sig\":\"").length = 8), (by decide : (bytes "\"\x7d").length = 2)]
  omega

theorem recordLine_seal (hC : Base64 C) (hsig : sig.length = 64) (hlines : lines < 2 ^ 64) :
    RecordLine h (seal_line C ts h sig head lines) :=
  recordLine_journal_line (by decide) (payloadOk_seal hC.alphabet sig hlines (seal_text_length hC hsig hlines))
    (daemon_line_fits ts h (seal_text_length hC hsig hlines))

theorem seal_line_marker (hC : Base64 C) (hsig : sig.length = 64) (hlines : lines < 2 ^ 64) :
    (strstr (seal_line C ts h sig head lines) seal_marker).isSome = true := by
  rw [strstr_isSome_iff, seal_line_eq ts h head hC.alphabet hlines (seal_text_length hC hsig hlines)]
  have hmem : bytes "retrace.journal.signed" ∈ sealFront ts h sig := by simp [sealFront]
  obtain ⟨a, b, hfront⟩ := append_of_mem hmem
  rw [hfront, flatMap_append, flatMap_cons]
  exact ⟨bytes "\x7b" ++ (a.flatMap (dquote :: ·) ++ [dquote]), _, by simp [seal_marker]; rfl⟩

theorem pull_b64_seal (hC : Base64 C) (hsig : sig.length = 64) (hlines : lines < 2 ^ 64) :
    pull_b64 C (seal_line C ts h sig head lines) = some (sig ++ replicate (base64Fill sig) 0, sig.length) := by
  obtain ⟨-, -, hfind⟩ := strstr_seal ts h head hC.alphabet hlines (seal_text_length hC hsig hlines)
  have hquote : dquote ∉ C.encodeBlock sig := (encodeBlock_plain hC.alphabet sig).not_mem_dquote
  have hrest : (bytes "\"sig\"" ++ sealSig C sig).drop 7 =
      C.encodeBlock sig ++ dquote :: bytes "\x7d\x7d\n" := by
    simp [sealSig, bytes]
  have hlen := hC.length sig
  have hfill : base64Fill sig = 2 := by simp [base64Fill, hsig]
  obtain ⟨body, henc, hbody⟩ := hC.padded sig
  have hpad : base64_pad (C.encodeBlock sig) = 2 := by
    rw [henc, hfill]
    exact base64_pad_eq hbody (Nat.le_refl 2)
  rw [hsig] at hlen
  simp only [pull_b64, hfind, bind_eq_bind, bind_some, hrest, takeWhile_dquote hquote, hlen,
    hC.decode, hpad, hfill, hsig, map_some, getD_some, length_append, length_cons,
    length_replicate]
  rw [if_neg (by omega), if_neg (by norm_num)]
  norm_num

theorem read_seal_sealed (hC : Base64 C) (hsig : sig.length = 64) (hlines : lines < 2 ^ 63)
    (hc : fs path = some content) (hcs : journal_chunks content = cs ++ [seal_line C ts h sig head lines]) :
    read_seal fs path = some ⟨seal_line C ts h sig head lines, fmtHex16 head, lines⟩ := by
  have hlt : lines < 2 ^ 64 := by omega
  have hline := @recordLine_seal C ts h sig head lines hC hsig hlt
  have hcstr : cstr (seal_line C ts h sig head lines) = seal_line C ts h sig head lines :=
    cstr_eq_self hline.noNul
  obtain ⟨hhead, hcount, -⟩ := strstr_seal ts h head hC.alphabet hlt (seal_text_length hC hsig hlt)
  have hlast : (((cs ++ [seal_line C ts h sig head lines]).map cstr).filter fun l =>
      (strstr l seal_marker).isSome).getLast? = some (seal_line C ts h sig head lines) := by
    rw [map_append, map_singleton, hcstr, filter_append, filter_singleton, seal_line_marker hC hsig hlt]
    simp
  have hhex : snprintf 32 (((bytes "\"head\"" ++ sealHead C sig head lines).drop 8).take 16) =
      fmtHex16 head := by
    have hdrop : (bytes "\"head\"" ++ sealHead C sig head lines).drop 8 = fmtHex16 head ++ dquote ::
        (bytes "," ++ dquote :: (bytes "lines" ++ dquote :: sealLines C sig lines)) := by
      simp [sealHead, bytes]
    rw [hdrop, take_left' (fmtHex16_length head), snprintf_eq_self (by simp)]
  have hnum : strtol10 ((bytes "\"lines\"" ++ sealLines C sig lines).drop 8) = lines := by
    have hdrop : (bytes "\"lines\"" ++ sealLines C sig lines).drop 8 =
        fmtNat lines ++ comma :: (dquote :: (bytes "sig" ++ dquote :: sealSig C sig)) := by
      simp [sealLines, bytes]
    rw [hdrop]
    exact strtol10_fmtNat hlines (by decide) _
  simp only [read_seal, hc, hcs, hlast, hhead, hcount, hhex, hnum, bind_eq_bind, bind_some]

theorem verify_sealed (hC : Base64 C) (hc : fs path = some content) (hne : cs ≠ [])
    (hcs : journal_chunks content = cs ++ [seal_line C ts h sig (headOf lineLink 0 cs) cs.length])
    (hl : Linked (Carries seeText) lineLink 0 (journal_chunks content)) (hsize : content.length < 2 ^ 63)
    (hpem : fs pubkey_path = some pem)
    (hpub : C.readPublicKey pem = some pub) {key : C.PrivateKey} (hpair : KeyPair C key pub)
    (hsigned : C.digestSign key (seal_message (fmtHex16 (headOf lineLink 0 cs)) (fmtNat cs.length)) = some sig)
    (hsig : sig.length = 64) : (retraced_journal_verify_file C fs path pubkey_path).ok = true := by
  have hlen : (journal_chunks content).length = cs.length + 1 := by rw [hcs]; simp
  have hpos : 0 < cs.length := length_pos_iff.mpr hne
  have hcount := chunks_length_le content
  have hlines : cs.length < 2 ^ 63 := by omega
  simp only [retraced_journal_verify_file, chain_file_linked hc hl, ne_eq, not_true_eq_false, if_false]
  rw [if_neg (by omega), read_seal_sealed hC hsig hlines hc hcs]
  simp only
  rw [if_neg (by omega), verify_signature_ok]
  refine ⟨pem, pub, _, _, hpem, hpub, pull_b64_seal hC hsig (by omega), hpair.init, ?_, ?_⟩
  · rw [hpair.accepts, fmtInt_natCast, hsigned, take_left' rfl]
  · rw [verify_sealed_head_ok hc hl (by omega), hcs, dropLast_concat]

end

theorem SingleFile.liveRep {s : Session} (h : SingleFile s) :
    ∃ live, LiveRep s.w.fs s.j.path s.j.f live ∧ live.flatten = s.text := by
  cases hf : s.j.f with
  | some f =>
    obtain ⟨hpath, hsome⟩ := h.stream f hf
    obtain ⟨content, hc⟩ := isSome_iff_exists.mp hsome
    refine ⟨[content ++ f.pending], ⟨hpath, ?_⟩, ?_⟩
    · simp [FILE.full, hpath, hc]
    · simp [Session.text, hf, FILE.full, hpath, hc]
  | none =>
    cases hc : s.w.fs s.j.path with
    | none => exact ⟨[], .inr ⟨hc, rfl⟩, by simp [Session.text, hf, hc]⟩
    | some content => exact ⟨[content], .inl (by simp [hc]), by simp [Session.text, hf, hc]⟩

section

variable {j : Journal}

theorem event_single (hlive : LiveRep w.fs j.path j.f live) (hrot : j.rotates = false) {ts : Int64}
    {agent_id : Bytes} {seq : UInt64} {payload : Option Bytes}
    (hline : journal_line ts agent_id seq j.prev_hash payload = line) (hfit : line.length < 2048) :
    ∃ fs' f', retraced_journal_event w j ts agent_id seq payload =
      (0, ⟨fs', w.written ++ [line]⟩, j.appended f' line) ∧
      LiveRep fs' j.path (some f') (live ++ [line]) ∧ ∀ p, p ≠ j.path → fs' p = w.fs p := by
  subst hline
  obtain ⟨fs', f', happend, hlive', hother⟩ := journal_append_eq hlive hfit
  refine ⟨fs', f', ?_, hlive', hother⟩
  have hdue : ∀ line, (j.appended f' line).due ts = false := by
    intro line
    have hsame : (j.appended f' line).rotates = j.rotates := rfl
    simp [Journal.due, hsame, hrot]
  simp only [retraced_journal_event, happend, hdue, Bool.false_eq_true, if_false]

theorem close_stream_single {fs : FS} {f : FILE} {path : Path} (hlive : LiveRep fs path (some f) live)
    {written : List Bytes} (hf : j.f = some f) : (close_stream ⟨fs, written⟩ j).fs path = some live.flatten ∧
      ∀ p, p ≠ path → (close_stream ⟨fs, written⟩ j).fs p = fs p := by
  obtain ⟨rfl, hfull⟩ := hlive
  simp only [close_stream, hf]
  exact ⟨by rw [fclose_content, hfull], fun p hp => fclose_other hp⟩

end

section

variable {C : Crypto} {s : Session} {closed_at sealed_at : Int64} {key_path pubkey_path : Path}

theorem close_single (h : SingleFile s) {closed : World × Journal}
    (hclosed : retraced_journal_close s.w s.j closed_at = closed) :
    closed.1.fs s.j.path = some (s.text ++ s.close_line closed_at) ∧
      (∀ p, p ≠ s.j.path → closed.1.fs p = s.w.fs p) ∧ closed.2.f = none ∧ closed.2.path = s.j.path ∧
      closed.2.rotates = false ∧
      closed.2.prev_hash = retraced_journal_line_hash (s.close_line closed_at) s.j.prev_hash := by
  obtain ⟨live, hlive, htext⟩ := h.liveRep
  have hfit : (s.close_line closed_at).length < 2048 :=
    daemon_line_fits closed_at s.j.prev_hash (by decide)
  have hline : journal_line closed_at daemon_id 0 s.j.prev_hash (some journal_closed_record) =
      s.close_line closed_at := rfl
  obtain ⟨fs', f', hevent, hlive', hother⟩ := event_single hlive h.rotates hline hfit
  obtain ⟨hfile, hrest⟩ := @close_stream_single (s.j.appended f' (s.close_line closed_at)) _ fs' f' s.j.path
    hlive' (s.w.written ++ [s.close_line closed_at]) rfl
  subst hclosed
  rw [retraced_journal_close, hevent]
  refine ⟨?_, fun p hp => (hrest p hp).trans (hother p hp), ?_, ?_, ?_, ?_⟩
  · rw [← htext]
    simpa using hfile
  · simp only
  · simp only [Journal.appended]
  · exact h.rotates
  · simp only [Journal.appended]

theorem sign_file_linked (hC : Base64 C)
    (hc : fs path = some content) (hl : Linked (Carries seeText) lineLink 0 (journal_chunks content))
    (hsize : content.length < 2 ^ 64) (hpem : fs key_path = some pem) {key : C.PrivateKey}
    (hkey : C.readPrivateKey pem = some key) {sig : Bytes} (hlen : sig.length = 64)
    (hsig : C.digestSign key (seal_message (fmtHex16 (headOf lineLink 0 (journal_chunks content)))
      (fmtNat (journal_chunks content).length)) = some sig) : retraced_journal_sign_file C fs key_path path 512 =
      .ok (seal_text C sig (headOf lineLink 0 (journal_chunks content)) (journal_chunks content).length) := by
  have hcount := chunks_length_le content
  have hfit : ¬ 512 ≤ (seal_text C sig (headOf lineLink 0 (journal_chunks content))
      (journal_chunks content).length).length :=
    Nat.not_le.mpr (seal_text_length hC hlen (by omega))
  simp only [retraced_journal_sign_file, chain_file_linked hc hl, ne_eq, not_true_eq_false,
    if_false, sign_head, hpem, hkey,
    hsig, if_neg hfit]

theorem stop_broken (h : SingleFile s)
    (hl : ¬ Linked (Carries seeText) lineLink 0 (journal_chunks (s.text ++ s.close_line closed_at))) :
    (s.stop C (.graceful closed_at sealed_at (some key_path))).1.fs s.j.path =
      some (s.text ++ s.close_line closed_at) := by
  obtain ⟨hfile, -, -, hpath, -⟩ := @close_single s closed_at h _ rfl
  rw [stop_unsealed]
  · exact hfile
  · rintro key - text hsign
    rw [← chain_file_ret_iff hfile] at hl
    rw [hpath, retraced_journal_sign_file] at hsign
    simp only [hl, ne_eq, not_false_eq_true, if_true] at hsign
    cases hsign

theorem stop_linked (hC : Base64 C) (h : SingleFile s) (hkeys : KeyFiles C s.w.fs s.j.path key_path pubkey_path)
    {content : Bytes} (hcontent : s.text ++ s.close_line closed_at = content)
    (hl : Linked (Carries seeText) lineLink 0 (journal_chunks content)) :
    ∃ pem key pub sig, C.readPublicKey pem = some pub ∧ KeyPair C key pub ∧ sig.length = 64 ∧
      C.digestSign key (seal_message (fmtHex16 (headOf lineLink 0 (journal_chunks content)))
        (fmtNat (journal_chunks content).length)) = some sig ∧
      (s.stop C (.graceful closed_at sealed_at (some key_path))).1.fs pubkey_path = some pem ∧
      (s.stop C (.graceful closed_at sealed_at (some key_path))).1.fs s.j.path = some (content ++
        seal_line C sealed_at (retraced_journal_line_hash (s.close_line closed_at) s.j.prev_hash) sig
          (headOf lineLink 0 (journal_chunks content)) (journal_chunks content).length) := by
  obtain ⟨hkne, hpne, pem, key, pem', pub, hpem, hkey, hpem', hpub, hpair⟩ := hkeys
  obtain ⟨sig, hsig, hlen⟩ := hpair.signs (seal_message (fmtHex16 (headOf lineLink 0 (journal_chunks content)))
    (fmtNat (journal_chunks content).length))
  have hsize : content.length < 2 ^ 63 := by
    have := h.size
    have hfit : (s.close_line closed_at).length < 2048 :=
      daemon_line_fits closed_at s.j.prev_hash (by decide)
    rw [← hcontent, length_append]
    omega
  have hcount := chunks_length_le content
  obtain ⟨hfile, hother, hf, hpath, hrot, hhead⟩ := @close_single s closed_at h _ rfl
  have hstop := @stop_sealed C s closed_at _ key_path (seal_text C sig
    (headOf lineLink 0 (journal_chunks content)) (journal_chunks content).length) sealed_at rfl
  generalize retraced_journal_close s.w s.j closed_at = closed at *
  rw [hcontent] at hfile
  have hsign := sign_file_linked hC (hpath ▸ hfile) hl (by omega) ((hother _ hkne).trans hpem) hkey hlen hsig
  have hlive : LiveRep closed.1.fs closed.2.path closed.2.f [content] := by
    rw [hf]
    exact .inl (by rw [hpath, hfile, flatten_singleton])
  have hline : journal_line sealed_at daemon_id 0 closed.2.prev_hash (some (seal_text C sig
      (headOf lineLink 0 (journal_chunks content)) (journal_chunks content).length)) =
      seal_line C sealed_at (retraced_journal_line_hash (s.close_line closed_at) s.j.prev_hash) sig
        (headOf lineLink 0 (journal_chunks content)) (journal_chunks content).length := by
    rw [seal_line, hhead]
  have hcounted : (journal_chunks content).length < 2 ^ 64 := by omega
  obtain ⟨fs', f', hevent, hlive', hrest⟩ := event_single hlive hrot hline
    (daemon_line_fits sealed_at _ (seal_text_length hC hlen hcounted))
  rw [hstop hsign, hevent]
  obtain ⟨hdone, hkept⟩ := @close_stream_single (closed.2.appended f' _) _ fs' f' closed.2.path hlive'
    (closed.1.written ++ _) rfl
  refine ⟨pem', key, pub, sig, hpub, hpair, hlen, hsig, ?_, ?_⟩
  · rw [hpath] at hkept hrest
    exact (hkept _ hpne).trans ((hrest _ hpne).trans ((hother _ hpne).trans hpem'))
  · rw [hpath] at hdone
    simpa using hdone

theorem linked_concat_iff (hl : Linked (Carries seeText) lineLink 0 ls) {h : UInt64} (hrec : RecordLine h l) :
    Linked (Carries seeText) lineLink 0 (ls ++ [l]) ↔ headOf lineLink 0 ls = h := by
  have hsee := hrec.text
  rw [linked_append]
  simp only [hl, linked_cons, linked_nil, and_true, true_and, Carries, hsee, Seen.link.injEq]
  exact eq_comm

theorem recordLine_close (s : Session) (closed_at : Int64) : RecordLine s.j.prev_hash (s.close_line closed_at) :=
  recordLine_journal_line (by decide) payloadOk_journal_closed
    (daemon_line_fits closed_at s.j.prev_hash (by decide))

theorem chunks_concat (hwhole : content = [] ∨ content.getLast? = some newline)
    (hline : IsLine 2048 line) : journal_chunks (content ++ line) = journal_chunks content ++ [line] := by
  have hone : fgetsAll 2048 line = [line] := by
    simpa [fgetsAll, fgetsFrom] using fgetsAll_line hline []
  rw [journal_chunks, journal_chunks, fgetsAll_append hwhole, hone]

theorem chunks_ne_nil (hlast : content.getLast? = some newline) : journal_chunks content ≠ [] := by
  intro hnil
  have hflat := flatten_fgetsAll 2048 content
  rw [show fgetsAll 2048 content = [] from hnil] at hflat
  simp [← hflat] at hlast

theorem seal_record (hC : Base64 C) (hs : SingleFile s) {sig : Bytes} (hsig : sig.length = 64)
    (hcontent : content = s.text ++ s.close_line closed_at)
    (hline : line = seal_line C sealed_at h sig (headOf lineLink 0 (journal_chunks content))
      (journal_chunks content).length) : RecordLine h line ∧ (content ++ line).length < 2 ^ 63 ∧
      journal_chunks (content ++ line) = journal_chunks content ++ [line] ∧ journal_chunks content ≠ [] := by
  have hclose := (recordLine_close s closed_at).isLine
  have hlast : content.getLast? = some newline := by
    rw [hcontent, getLast?_append, hclose.getLast?, some_or]
  have hsize := hs.size
  have hlen := congrArg List.length hcontent
  rw [length_append] at hlen
  obtain ⟨-, -, -, hclosefit⟩ := hclose
  have hcount := chunks_length_le content
  have hrec : RecordLine h line := hline ▸ recordLine_seal hC hsig (by omega)
  refine ⟨hrec, ?_, chunks_concat (.inr hlast) hrec.isLine, chunks_ne_nil hlast⟩
  obtain ⟨-, -, -, hsealfit⟩ := hrec.isLine
  rw [length_append]
  omega

theorem verify_after_linked (hC : Base64 C) (hs : SingleFile s)
    (hkeys : KeyFiles C s.w.fs s.j.path key_path pubkey_path)
    (hl : Linked (Carries seeText) lineLink 0 (journal_chunks (s.text ++ s.close_line closed_at))) :
    (retraced_journal_verify_file C (s.stop C (.graceful closed_at sealed_at (some key_path))).1.fs
        s.j.path pubkey_path).ok = true ↔ headOf lineLink 0 (journal_chunks (s.text ++ s.close_line closed_at)) =
        retraced_journal_line_hash (s.close_line closed_at) s.j.prev_hash := by
  obtain ⟨pem, key, pub, sig, hpub, hpair, hlen, hsig, hpem, hfile⟩ :=
    @stop_linked C s closed_at sealed_at key_path pubkey_path hC hs hkeys _ rfl hl
  obtain ⟨hrec, hsize, hchunks, hne⟩ := seal_record hC hs hlen rfl rfl
  rw [← linked_concat_iff hl hrec, ← hchunks]
  exact ⟨linked_of_verify_ok hfile,
    fun hlinked => verify_sealed hC hfile hne hchunks hlinked hsize hpem hpub hpair hsig hlen⟩

theorem sealed_content (hC : Base64 C) (hs : SingleFile s)
    (hkeys : KeyFiles C s.w.fs s.j.path key_path pubkey_path)
    (hl : Linked (Carries seeText) lineLink 0 (journal_chunks (s.text ++ s.close_line closed_at))) :
    ∃ content, (s.stop C (.graceful closed_at sealed_at (some key_path))).1.fs s.j.path = some content ∧
      content.length < 2 ^ 63 ∧ 2 ≤ (journal_chunks content).length := by
  obtain ⟨pem, key, pub, sig, -, -, hlen, -, -, hfile⟩ :=
    @stop_linked C s closed_at sealed_at key_path pubkey_path hC hs hkeys _ rfl hl
  obtain ⟨-, hsize, hchunks, hne⟩ := seal_record hC hs hlen rfl rfl
  refine ⟨_, hfile, hsize, ?_⟩
  rw [hchunks, length_append, length_singleton]
  exact Nat.succ_le_succ (length_pos_of_ne_nil hne)

/-- **Seal and verify.** After a sealed shutdown of a journal in one file the check with the public key
succeeds if and only if the journal with its close record is a chain with the writer's head. On any file
of at least two lines it succeeds only when the signature in the last line that names a seal is one for
the head and the number of all lines but the last. -/
theorem verify_after_seal_iff {C : Crypto} (hC : Base64 C) :
    (∀ (s : Session) (closed_at sealed_at : Int64) (key_path pubkey_path : Path), SingleFile s →
      KeyFiles C s.w.fs s.j.path key_path pubkey_path →
      ((retraced_journal_verify_file C (s.stop C (.graceful closed_at sealed_at (some key_path))).1.fs
        s.j.path pubkey_path).ok = true ↔ ClosesOnHead s closed_at)) ∧
    ∀ (fs : FS) (path pubkey_path : Path) (content : Bytes), fs path = some content →
      content.length < 2 ^ 63 → 2 ≤ (journal_chunks content).length →
      (retraced_journal_verify_file C fs path pubkey_path).ok = true →
      ∃ pem pub, fs pubkey_path = some pem ∧ C.readPublicKey pem = some pub ∧ SealValid C pub content := by
  refine ⟨fun s closed_at sealed_at key_path pubkey_path hs hkeys => ?_,
    fun fs path pubkey_path content hc hsize htwo hok => sealValid_of_verify_ok hc hsize htwo hok⟩
  by_cases hl : Linked (Carries seeText) lineLink 0 (journal_chunks (s.text ++ s.close_line closed_at))
  · rw [verify_after_linked hC hs hkeys hl]
    exact ⟨fun hhead => ⟨hl, hhead⟩, fun h => h.head⟩
  · -- There is no seal, and the file is as broken as before.
    have hfile := @stop_broken C s closed_at sealed_at key_path hs hl
    exact ⟨fun hok => absurd (linked_of_verify_ok hfile hok) hl, fun h => absurd h.linked hl⟩

theorem closesOnHead_of_whole (hwhole : s.text = [] ∨ s.text.getLast? = some newline)
    (hl : Linked (Carries seeText) lineLink 0 (journal_chunks s.text))
    (hhead : headOf lineLink 0 (journal_chunks s.text) = s.j.prev_hash) : ClosesOnHead s closed_at := by
  have hline := recordLine_close s closed_at
  have hchunks := chunks_concat hwhole hline.isLine
  refine ⟨?_, ?_⟩
  · rw [hchunks, linked_concat_iff hl hline, hhead]
  · rw [hchunks, headOf_append, hhead, headOf_cons, headOf_nil, lineLink, cstr_eq_self hline.noNul]

end

def plainSignatures : Crypto where
  PrivateKey := Unit
  PublicKey := Unit
  readPrivateKey _ := some ()
  readPublicKey _ := some ()
  digestSign _ msg := some ((msg ++ replicate 64 0).take 64)
  verifyInit _ := true
  digestVerify _ sig sig_len msg := (msg ++ replicate 64 0).take 64 = sig.take sig_len
  encodeBlock := base64Encode
  decodeBlock := base64Decode

theorem base64_plainSignatures : Base64 plainSignatures := by
  have hdigit : ∀ c, isBase64Digit c = true → isBase64 c = true := by
    intro c hc
    simp only [isBase64Digit, isBase64] at hc ⊢
    rw [hc, Bool.true_or]
  refine ⟨?_, base64Encode_length, ?_, base64Decode_encode⟩
  · intro sig c hc
    obtain ⟨body, hbody, hdigits⟩ := base64Encode_padded sig
    have hmem : c ∈ body ++ replicate (base64Fill sig) 61 := hbody ▸ hc
    rcases mem_append.mp hmem with h | h
    · exact hdigit c (hdigits c h)
    · rw [eq_of_mem_replicate h]
      decide
  · intro sig
    obtain ⟨body, hbody, hdigits⟩ := base64Encode_padded sig
    exact ⟨body, hbody, fun h => absurd (hdigits 61 h) (by decide)⟩

theorem keyPair_plainSignatures : KeyPair plainSignatures () () := by
  refine ⟨fun msg => ⟨_, rfl, by simp⟩, rfl, fun buf len msg => ?_⟩
  simp [plainSignatures]

def withKeys (content : Option Bytes) : FS := fun p =>
  if p = bytes "j" then content else if p = bytes "k" ∨ p = bytes "p" then some [] else none

theorem keyFiles_withKeys : KeyFiles plainSignatures (withKeys content) (bytes "j") (bytes "k") (bytes "p") :=
  ⟨by decide, by decide, [], (), [], (), rfl, rfl, rfl, rfl, keyPair_plainSignatures⟩

def sealTalk : Session :=
  run (Session.step (bytes "j")) (journal_boot (bytes "j") ⟨withKeys none, []⟩ {} 0)
    [.event 0 (bytes "a") 0 (some (bytes
      "\x7b\"name\":\"retrace.journal.signed\",\"head\":\"0\",\"lines\":7,\"sig\":\"A\"\x7d"))]

theorem sealTalk_running : (sealTalk.j.path = bytes "j" ∧ sealTalk.j.rotates = false ∧
      (∀ f ∈ sealTalk.j.f, f.path = sealTalk.j.path ∧ (sealTalk.w.fs sealTalk.j.path).isSome) ∧
      sealTalk.text.length + 4096 < 2 ^ 63 ∧ sealTalk.w.fs (bytes "k") = some [] ∧
        sealTalk.w.fs (bytes "p") = some []) ∧
    sealTalk.text.getLast? = some newline ∧ (walk seeText lineLink 0 (journal_chunks sealTalk.text)).exit = .eof ∧
      headOf lineLink 0 (journal_chunks sealTalk.text) = sealTalk.j.prev_hash := by
  decide +kernel

/-- Its seal verifies, and stands for the record and the close. -/
theorem verify_after_seal_sealTalk :
    (retraced_journal_verify_file plainSignatures
      (sealTalk.stop plainSignatures (.graceful 1 2 (some (bytes "k")))).1.fs (bytes "j") (bytes "p")).ok = true ∧
    ∃ content pem pub, (sealTalk.stop plainSignatures (.graceful 1 2 (some (bytes "k")))).1.fs (bytes "j") =
        some content ∧ plainSignatures.readPublicKey pem = some pub ∧ SealValid plainSignatures pub content := by
  obtain ⟨⟨hpath, hrotates, hstream, hsize, hkey, hpub⟩, hlast, hexit, hhead⟩ := sealTalk_running
  have hkeys : KeyFiles plainSignatures sealTalk.w.fs sealTalk.j.path (bytes "k") (bytes "p") := by
    rw [hpath]
    exact ⟨by decide, by decide, [], (), [], (), hkey, rfl, hpub, rfl, keyPair_plainSignatures⟩
  have hcloses : ClosesOnHead sealTalk 1 :=
    closesOnHead_of_whole (.inr hlast) ((walk_exit_eof_iff ..).mp hexit) hhead
  have hok := ((verify_after_seal_iff base64_plainSignatures).1 sealTalk 1 2 (bytes "k") (bytes "p")
    ⟨hrotates, hstream, hsize⟩ hkeys).mpr hcloses
  rw [hpath] at hok
  refine ⟨hok, ?_⟩
  obtain ⟨content, hc, hsize, htwo⟩ := @sealed_content plainSignatures sealTalk 1 2 (bytes "k") (bytes "p")
    base64_plainSignatures ⟨hrotates, hstream, hsize⟩ hkeys hcloses.linked
  rw [hpath] at hc
  obtain ⟨pem, pub, -, hpub, hvalid⟩ := (verify_after_seal_iff base64_plainSignatures).2 _ (bytes "j") (bytes "p")
    content hc hsize htwo hok
  exact ⟨content, pem, pub, hc, hpub, hvalid⟩

def tornFile : FS :=
  withKeys (some (bytes
    "\x7b\"ts\":0,\"agent\":\"daemon\",\"seq\":0,\"prev\":\"0000000000000000\",\"ev\":\x7b\x7d"))

/-- All lines of the torn journal verify, the daemon boots on it, and the shutdown signs and seals it, but
the close record went behind the torn line: the seal does not carry the head it seals. -/
theorem not_verify_after_seal :
    Base64 plainSignatures ∧ KeyFiles plainSignatures tornFile (bytes "j") (bytes "k") (bytes "p") ∧
    (retraced_journal_chain_file tornFile (bytes "j") 0).ret = 0 ∧
    ((main_boot (bytes "j") ⟨tornFile, []⟩ {} 0).any fun s =>
      (retraced_journal_chain_file (retraced_journal_close s.w s.j 1).1.fs s.j.path 0).ret = 0 ∧
      retraced_journal_verify_file plainSignatures
        (s.stop plainSignatures (.graceful 1 2 (some (bytes "k")))).1.fs s.j.path (bytes "p") =
          .chain_broken 2) = true :=
  ⟨base64_plainSignatures, keyFiles_withKeys, by decide +kernel, by decide +kernel⟩

end Retrace.Retraced
