import Retrace.Core.SockaddrInspect
import Retrace.CLib.Proofs.CStringProofs

/-!
# Specs and addresses

A spec is compared with the printed address as a text. An IPv4 address has one standard text and an IPv6 address
has many, so a spec matches by address exactly when an IPv6 address in it is written in brackets and as
`format_ipv6` prints it. A bare IPv6 address is cut at its first colon and is malformed.
-/

namespace Retrace.Core

open CLib List

variable {host ip : Bytes} {sa : Sockaddr} {s spec t : Bytes} {port : Option UInt16}

theorem mem_intercalate (h : c ∈ [x].intercalate ss) : c = x ∨ ∃ s ∈ ss, c ∈ s := by
  induction ss with
  | nil => simp [intercalate] at h
  | cons s ss ih =>
    cases ss with
    | nil => exact .inr ⟨s, by simp, by simpa [intercalate] using h⟩
    | cons t ss =>
      rw [intercalate_cons_cons, append_assoc, mem_append, mem_append] at h
      rcases h with h | h | h
      · exact .inr ⟨s, by simp, h⟩
      · exact .inl (by simpa using h)
      · rcases ih h with hx | ⟨u, hu, hc⟩
        · exact .inl hx
        · exact .inr ⟨u, mem_cons_of_mem s hu, hc⟩

theorem length_le_count_intercalate (x : UInt8) (ss : List Bytes) :
    ss.length ≤ ([x].intercalate ss).count x + 1 := by
  induction ss with
  | nil => simp
  | cons s ss ih =>
    cases ss with
    | nil => simp
    | cons t ss =>
      rw [intercalate_cons_cons, count_append, count_append, count_singleton_self]
      simp only [length_cons] at ih ⊢
      omega

theorem length_intercalate_le (x : UInt8) {k : Nat} {ss : List Bytes} (h : ∀ s ∈ ss, s.length ≤ k) :
    ([x].intercalate ss).length ≤ (k + 1) * ss.length := by
  induction ss with
  | nil => simp [intercalate]
  | cons s ss ih =>
    have hs := h s (by simp)
    cases ss with
    | nil =>
      simp only [intercalate, intersperse_singleton, flatten_cons, flatten_nil, append_nil, length_singleton]
      omega
    | cons t ss =>
      have hrest := ih fun u hu => h u (mem_cons_of_mem s hu)
      rw [intercalate_cons_cons, length_append, length_append, length_singleton]
      simp only [length_cons, Nat.mul_add] at hrest ⊢
      omega

theorem intercalate_inj (x : UInt8) (hs : ∀ s ∈ ss, x ∉ s) (ht : ∀ t ∈ ts, x ∉ t)
    (hne : ss ≠ []) (hne' : ts ≠ []) (h : [x].intercalate ss = [x].intercalate ts) : ss = ts := by
  rw [← splitOn_intercalate x hs hne, h, splitOn_intercalate x ht hne']

theorem digitsVal_fmtHex (n : Nat) : digitsVal 16 (fmtHex n) = n := by
  unfold fmtHex
  split_ifs with h
  · subst h
    rfl
  · rw [digitsVal_map fun d hd => (hexDigit_spec d (Nat.digits_lt_base (by norm_num) hd)).1, Nat.ofDigits_digits]

theorem isxdigit_of_mem_fmtHex (h : c ∈ fmtHex n) : isxdigit c = true := by
  unfold fmtHex at h
  split_ifs at h
  · obtain rfl : c = 48 := by simpa using h
    decide
  · obtain ⟨d, hd, rfl⟩ := mem_map.mp h
    exact (hexDigit_spec d (Nat.digits_lt_base (by norm_num) (mem_reverse.mp hd))).2.1

theorem length_fmtHex_le (h : n < 65536) : (fmtHex n).length ≤ 4 := by
  unfold fmtHex
  split_ifs with hn
  · simp
  · rw [length_map, length_reverse, Nat.length_digits 16 n (by norm_num) hn]
    exact Nat.succ_le_of_lt (Nat.log_lt_of_lt_pow hn (by norm_num; omega))

theorem isxdigit_of_isdigit (h : isdigit c = true) : isxdigit c = true := by
  have hle : c.toNat - 48 < 16 := by
    simp only [isdigit, Bool.and_eq_true, decide_eq_true_eq, UInt8.le_iff_toNat_le] at h
    have : c.toNat ≤ 57 := h.2
    omega
  simp [isxdigit, hexval, h, hle]

theorem mem_format_ipv4 {a : InAddr} (h : c ∈ format_ipv4 a) : c = 46 ∨ isdigit c = true := by
  rcases mem_intercalate h with h | ⟨s, hs, hc⟩
  · exact .inl h
  · simp only [mem_cons, not_mem_nil, or_false] at hs
    rcases hs with rfl | rfl | rfl | rfl <;> exact .inr (isdigit_of_mem_fmtNat hc)

theorem mem_format_ipv6 (h : c ∈ format_ipv6 a) : c = colon ∨ isxdigit c = true := by
  rcases mem_intercalate h with h | ⟨s, hs, hc⟩
  · exact .inl h
  · obtain ⟨w, -, rfl⟩ := mem_map.mp hs
    exact .inr (isxdigit_of_mem_fmtHex hc)

theorem colon_not_mem_format_ipv4 : colon ∉ format_ipv4 a := by
  intro h
  rcases mem_format_ipv4 h with h | h
  · exact absurd h (by decide)
  · exact absurd h (by decide)

theorem colon_mem_format_ipv6 (a : In6Addr) : colon ∈ format_ipv6 a := by
  have hcount := length_le_count_intercalate colon (a.words.map fun w => fmtHex w.toNat)
  rw [length_map, a.length_words] at hcount
  exact count_pos_iff.mp (show 0 < (format_ipv6 a).count colon by rw [format_ipv6]; omega)

theorem format_ipv4_inj {a b : InAddr} (h : format_ipv4 a = format_ipv4 b) : a = b := by
  have hdot : ∀ (x : InAddr), ∀ s ∈ [fmtNat x.a.toNat, fmtNat x.b.toNat, fmtNat x.c.toNat, fmtNat x.d.toNat],
      (46 : UInt8) ∉ s := by
    intro x s hs hmem
    simp only [mem_cons, not_mem_nil, or_false] at hs
    rcases hs with rfl | rfl | rfl | rfl <;> exact absurd (isdigit_of_mem_fmtNat hmem) (by decide)
  have hpieces := intercalate_inj 46 (hdot a) (hdot b) (by simp) (by simp) h
  have hval : ∀ {x y : UInt8}, fmtNat x.toNat = fmtNat y.toNat → x = y := by
    intro x y hxy
    rw [← UInt8.toNat_inj, ← digitsVal_fmtNat x.toNat, hxy, digitsVal_fmtNat]
  simp only [List.cons.injEq, and_true] at hpieces
  obtain ⟨ha, hb, hc, hd⟩ := hpieces
  cases a
  cases b
  simp only [InAddr.mk.injEq]
  exact ⟨hval ha, hval hb, hval hc, hval hd⟩

theorem format_ipv6_inj (h : format_ipv6 a = format_ipv6 b) : a = b := by
  have hcolon : ∀ (x : In6Addr), ∀ s ∈ x.words.map (fun w => fmtHex w.toNat), colon ∉ s := by
    intro x s hs hmem
    obtain ⟨w, -, rfl⟩ := mem_map.mp hs
    exact absurd (isxdigit_of_mem_fmtHex hmem) (by decide)
  have hne : ∀ x : In6Addr, x.words.map (fun w => fmtHex w.toNat) ≠ [] := by
    intro x hnil
    have := congrArg List.length hnil
    rw [length_map, x.length_words] at this
    exact absurd this (by decide)
  have hpieces := intercalate_inj colon (hcolon a) (hcolon b) (hne a) (hne b) h
  have hinj : Function.Injective fun w : UInt16 => fmtHex w.toNat := by
    intro x y hxy
    have hxy' : fmtHex x.toNat = fmtHex y.toNat := hxy
    rw [← UInt16.toNat_inj, ← digitsVal_fmtHex x.toNat, hxy', digitsVal_fmtHex]
  cases a
  cases b
  simp only [In6Addr.mk.injEq]
  exact hinj.list_map hpieces

theorem format_ipv4_ne_ipv6 : format_ipv4 a ≠ format_ipv6 b := by
  intro h
  exact colon_not_mem_format_ipv4 (h ▸ colon_mem_format_ipv6 b)

theorem format_ipv4_ne_nil : format_ipv4 a ≠ [] := by
  simp [format_ipv4, intercalate_cons_cons, fmtNat_ne_nil]

theorem length_format_ipv4 : (format_ipv4 a).length < RETRACE_SOCKADDR_IP_LEN := by
  have hlen : ∀ x : UInt8, (fmtNat x.toNat).length ≤ 3 := fun x =>
    fmtNat_length_le (by norm_num) (lt_of_lt_of_le x.toNat_lt (by norm_num))
  have h := @length_intercalate_le 46 3 [fmtNat a.a.toNat, fmtNat a.b.toNat, fmtNat a.c.toNat,
      fmtNat a.d.toNat] (by
    intro s hs
    simp only [mem_cons, not_mem_nil, or_false] at hs
    rcases hs with rfl | rfl | rfl | rfl <;> exact hlen _)
  exact lt_of_le_of_lt h (by simp [RETRACE_SOCKADDR_IP_LEN])

theorem length_format_ipv6 : (format_ipv6 a).length < RETRACE_SOCKADDR_IP_LEN := by
  have h := @length_intercalate_le colon 4 (a.words.map fun w => fmtHex w.toNat) (by
    intro s hs
    obtain ⟨w, -, rfl⟩ := mem_map.mp hs
    exact length_fmtHex_le w.toNat_lt)
  rw [length_map, a.length_words] at h
  exact lt_of_le_of_lt h (by decide)

theorem WordTexts.mem (h : WordTexts ss ws) : ∀ s ∈ ss, ∀ c ∈ s, c = 46 ∨ isxdigit c = true := by
  induction h with
  | nil => simp
  | dotted a =>
    intro s hs c hc
    obtain rfl : s = format_ipv4 a := by simpa using hs
    rcases mem_format_ipv4 hc with h | h
    · exact .inl h
    · exact .inr (isxdigit_of_isdigit h)
  | cons hw _ ih =>
    intro s hs c hc
    rcases mem_cons.mp hs with rfl | hs
    · exact .inr (hw.digits c hc)
    · exact ih s hs c hc

theorem WordTexts.length_le (h : WordTexts ss ws) : ws.length ≤ ss.length + 1 := by
  induction h with
  | nil => simp
  | dotted a => simp
  | cons _ _ ih =>
    simp only [length_cons]
    omega

theorem In6Text.mem (h : In6Text t a) : ∀ c ∈ t, c = colon ∨ c = 46 ∨ isxdigit c = true := by
  have hpieces : ∀ {ss : List Bytes} {ws : List UInt16}, WordTexts ss ws →
      ∀ c ∈ [colon].intercalate ss, c = colon ∨ c = 46 ∨ isxdigit c = true := by
    intro ss ws hss c hc
    rcases mem_intercalate hc with h | ⟨s, hs, hcs⟩
    · exact .inl h
    · exact .inr (hss.mem s hs c hcs)
  cases h with
  | full h => exact hpieces h
  | compressed zeros hl _ hr _ _ =>
    intro c hc
    rcases mem_append.mp hc with hc | hc
    · rcases mem_append.mp hc with hc | hc
      · exact hpieces hl c hc
      · exact .inl (by simpa using hc)
    · exact hpieces hr c hc

theorem In6Text.two_colons (h : In6Text t a) : 2 ≤ t.count colon := by
  cases h with
  | full h =>
    rename_i ss
    have hlen := h.length_le
    have hcount := length_le_count_intercalate colon ss
    rw [a.length_words] at hlen
    omega
  | compressed zeros hl _ hr _ _ =>
    rw [count_append, count_append]
    have : ([colon, colon] : Bytes).count colon = 2 := by decide
    omega

theorem In6Text.not_mem (h : In6Text t a) : 42 ∉ t ∧ 91 ∉ t ∧ 93 ∉ t := by
  have hno : ∀ c : UInt8, c ≠ colon → c ≠ 46 → isxdigit c = false → c ∉ t := by
    intro c hcolon hdot hdigit hmem
    rcases h.mem c hmem with h | h | h
    · exact hcolon h
    · exact hdot h
    · rw [hdigit] at h
      cases h
  exact ⟨hno 42 (by decide) (by decide) (by decide), hno 91 (by decide) (by decide) (by decide),
    hno 93 (by decide) (by decide) (by decide)⟩

theorem le_foldl_digits (s : Bytes) (v : Nat) : v ≤ s.foldl (fun n c => n * 10 + hexval c) v := by
  induction s generalizing v with
  | nil => exact le_rfl
  | cons c s ih =>
    have hstep : v ≤ v * 10 + hexval c := by omega
    exact hstep.trans (ih _)

theorem parse_port_loop_eq (hs : ∀ c ∈ s, isdigit c = true)
    (hle : s.foldl (fun n c => n * 10 + hexval c) v ≤ 65535) :
    parse_port_loop v s = some (s.foldl (fun n c => n * 10 + hexval c) v) := by
  induction s generalizing v with
  | nil => rfl
  | cons c s ih =>
    have hc := hs c (by simp)
    have hval : hexval c = c.toNat - 48 := by rw [hexval, if_pos hc]
    rw [foldl_cons] at hle ⊢
    have hmono := le_foldl_digits s (v * 10 + hexval c)
    rw [parse_port_loop, if_pos hc]
    dsimp only
    rw [← hval, if_neg (by omega), ih (fun d hd => hs d (mem_cons_of_mem c hd)) hle]

theorem parse_port_text (h : PortText s p) : parse_port s = some p.toNat := by
  have hle : digitsVal 10 s ≤ 65535 := by
    rw [h.value]
    exact Nat.le_of_lt_succ p.toNat_lt
  obtain ⟨c, s, rfl⟩ := exists_cons_of_ne_nil h.ne_nil
  have hc := h.digits c (by simp)
  rw [parse_port, if_pos (by simpa using hc), parse_port_loop_eq h.digits hle]
  exact congrArg some h.value

theorem parse_port_part_spec (h : PortSpec port s) : parse_port_part s = some (port.map UInt16.toNat) := by
  cases h with
  | any => rfl
  | port h =>
    have hne : s ≠ [42] := by
      rintro rfl
      exact absurd (h.digits 42 (by simp)) (by decide)
    rw [parse_port_part, if_neg hne, parse_port_text h]
    rfl

theorem parse_port_loop_none (hc : c ∈ s) (hdigit : isdigit c = false) (v : Nat) : parse_port_loop v s = none := by
  induction s generalizing v with
  | nil => cases hc
  | cons d s ih =>
    rw [parse_port_loop]
    split_ifs with hd
    · dsimp only
      split_ifs
      · rfl
      · rcases mem_cons.mp hc with rfl | hc
        · rw [hd] at hdigit
          cases hdigit
        · exact ih hc _
    · rfl

structure Inspected (sa : Sockaddr) (ip : Bytes) (port : UInt16) : Prop where
  ip_eq : (retrace_sockaddr_inspect sa).ip = ip
  port_eq : (retrace_sockaddr_inspect sa).port = port.toNat
  group_ne : (retrace_sockaddr_inspect sa).group ≠ .unix ∧ (retrace_sockaddr_inspect sa).group ≠ .unknown

theorem inspected_inet : Inspected (.inet a p) (format_ipv4 a) p :=
  ⟨rfl, rfl, by simp [retrace_sockaddr_inspect], by simp [retrace_sockaddr_inspect]⟩

theorem inspected_inet6 (a : In6Addr) (p : UInt16) : Inspected (.inet6 a p) (format_ipv6 a) p :=
  ⟨rfl, rfl, by simp [retrace_sockaddr_inspect], by simp [retrace_sockaddr_inspect]⟩

theorem match_of_parse (hsa : Inspected sa ip p) (hspec : spec ≠ [42])
    (hparse : parse_host_port spec RETRACE_SOCKADDR_IP_LEN = some (host, port.map UInt16.toNat)) :
    retrace_sockaddr_match (retrace_sockaddr_inspect sa) spec ≠ -1 ∧
      (retrace_sockaddr_match (retrace_sockaddr_inspect sa) spec = 1 ↔
        (host = [42] ∨ host = ip) ∧ ∀ q ∈ port, q = p) := by
  have hport : (port.map UInt16.toNat).any (· ≠ p.toNat) = false ↔ ∀ q ∈ port, q = p := by
    cases port with
    | none => simp
    | some q => simp [UInt16.toNat_inj]
  rw [retrace_sockaddr_match, if_neg hspec, if_neg hsa.group_ne.1, if_neg (fun h => hsa.group_ne.2 h.1), hparse]
  dsimp only
  rw [hsa.ip_eq, hsa.port_eq]
  by_cases hhost : host ≠ [42] ∧ host ≠ ip
  · rw [if_pos hhost]
    exact ⟨by decide, iff_of_false (by decide) fun h => h.1.elim hhost.1 hhost.2⟩
  · rw [if_neg hhost]
    have hhost' : host = [42] ∨ host = ip := by tauto
    cases hany : (port.map UInt16.toNat).any (· ≠ p.toNat) with
    | true =>
      rw [if_pos rfl]
      refine ⟨by decide, iff_of_false (by decide) fun h => ?_⟩
      rw [hport.mpr h.2] at hany
      cases hany
    | false =>
      rw [if_neg (by decide)]
      exact ⟨by decide, iff_of_true rfl ⟨hhost', hport.mp hany⟩⟩

theorem match_of_parse_none (hsa : Inspected sa ip p)
    (hspec : spec ≠ [42]) (hparse : parse_host_port spec RETRACE_SOCKADDR_IP_LEN = none) :
    retrace_sockaddr_match (retrace_sockaddr_inspect sa) spec = -1 := by
  rw [retrace_sockaddr_match, if_neg hspec, if_neg hsa.group_ne.1, if_neg (fun h => hsa.group_ne.2 h.1), hparse]

theorem takeWhile_ne_append (h : x ∉ s) : (s ++ x :: r).takeWhile (· ≠ x) = s := by
  induction s with
  | nil => simp
  | cons c s ih =>
    have hc : c ≠ x := fun heq => h (by simp [heq])
    rw [cons_append, takeWhile_cons_of_pos (by simpa using hc), ih fun hmem => h (mem_cons_of_mem c hmem)]

theorem drop_succ_append : (s ++ x :: r).drop (s.length + 1) = r := by
  rw [← drop_drop, drop_left, drop_one, tail_cons]

theorem parse_plain {port : Option UInt16} (hcolon : colon ∉ host) (hne : host ≠ [])
    (hhead : host.head? ≠ some 91) (hlen : host.length < RETRACE_SOCKADDR_IP_LEN) (h : PortSpec port s) :
    parse_host_port (host ++ colon :: s) RETRACE_SOCKADDR_IP_LEN = some (host, port.map UInt16.toNat) := by
  have hhead' : (host ++ colon :: s).head? ≠ some 91 := by
    rw [head?_append_of_ne_nil _ hne]
    exact hhead
  rw [parse_host_port]
  dsimp only
  rw [if_neg hhead', if_pos (by simp), takeWhile_ne_append hcolon, drop_succ_append, parse_port_part_spec h]
  simp [hne, hlen]

theorem parse_literal (hclose : 93 ∉ t) (h : PortSpec port s) :
    parse_host_port (91 :: t ++ 93 :: colon :: s) RETRACE_SOCKADDR_IP_LEN =
      if t = [] ∨ RETRACE_SOCKADDR_IP_LEN ≤ t.length then none else some (t, port.map UInt16.toNat) := by
  have hhead : (91 :: t ++ 93 :: colon :: s).head? = some 91 := rfl
  rw [parse_host_port]
  dsimp only
  rw [if_pos hhead, if_pos (by simp), cons_append, tail_cons, takeWhile_ne_append hclose, drop_succ_append]
  dsimp only
  rw [if_pos rfl, parse_port_part_spec h]
  rfl

theorem parse_bare (hcolon : colon ∉ host) (hne : host ≠ []) (hhead : host.head? ≠ some 91)
    (hlen : host.length < RETRACE_SOCKADDR_IP_LEN) :
    parse_host_port host RETRACE_SOCKADDR_IP_LEN = some (host, none) := by
  rw [parse_host_port]
  dsimp only
  rw [if_neg hhead, if_neg hcolon]
  simp [hne, hlen]

theorem parse_two_colons (hhead : t.head? ≠ some 91) (hcolons : 2 ≤ t.count colon) :
    parse_host_port t cap = none := by
  have hmem : colon ∈ t := count_pos_iff.mp (by omega)
  obtain ⟨u, v, rfl, hu⟩ := eq_append_cons_of_mem hmem
  -- The second colon is in the text of the port.
  have hv : colon ∈ v := by
    rw [count_append, count_cons_self, count_eq_zero.mpr hu] at hcolons
    exact count_pos_iff.mp (by omega)
  have hne : v ≠ [42] := by
    rintro rfl
    exact absurd hv (by decide)
  have hport : parse_port_part v = none := by
    rw [parse_port_part, if_neg hne, parse_port]
    split_ifs
    · rw [parse_port_loop_none hv (by decide), Option.map_none]
    · rfl
  rw [parse_host_port]
  dsimp only
  rw [if_neg hhead, if_pos hmem, takeWhile_ne_append hu, drop_succ_append, hport]
  rfl

theorem format_ipv4_head : (format_ipv4 a).head? ≠ some 91 := by
  intro h
  rcases mem_format_ipv4 (mem_of_mem_head? h) with h | h
  · exact absurd h (by decide)
  · exact absurd h (by decide)

theorem format_ipv4_ne_star : format_ipv4 a ≠ [42] := by
  intro h
  have hmem : (42 : UInt8) ∈ format_ipv4 a := by rw [h]; simp
  rcases mem_format_ipv4 hmem with h | h
  · exact absurd h (by decide)
  · exact absurd h (by decide)

theorem matches_any_host (hspec : spec ≠ [42])
    (hparse : parse_host_port spec RETRACE_SOCKADDR_IP_LEN = some ([42], port.map UInt16.toNat)) :
    MatchesByAddress spec .any port := by
  rintro sa (⟨a, p, rfl⟩ | ⟨a, p, rfl⟩)
  · obtain ⟨hne, hiff⟩ := match_of_parse inspected_inet hspec hparse
    exact ⟨hne, hiff.trans (by simp [Agrees])⟩
  · obtain ⟨hne, hiff⟩ := match_of_parse (inspected_inet6 a p) hspec hparse
    exact ⟨hne, hiff.trans (by simp [Agrees])⟩

theorem matches_inet {a : InAddr} (hspec : spec ≠ [42])
    (hparse : parse_host_port spec RETRACE_SOCKADDR_IP_LEN = some (format_ipv4 a, port.map UInt16.toNat)) :
    MatchesByAddress spec (.inet a) port := by
  rintro sa (⟨b, p, rfl⟩ | ⟨b, p, rfl⟩)
  · obtain ⟨hne, hiff⟩ := match_of_parse inspected_inet hspec hparse
    refine ⟨hne, hiff.trans (and_congr_left' ?_)⟩
    rw [or_iff_right format_ipv4_ne_star]
    exact ⟨format_ipv4_inj, fun h => by rw [h]⟩
  · obtain ⟨hne, hiff⟩ := match_of_parse (inspected_inet6 b p) hspec hparse
    refine ⟨hne, hiff.trans (iff_of_false ?_ fun h => h)⟩
    rintro ⟨h | h, -⟩
    · exact format_ipv4_ne_star h
    · exact format_ipv4_ne_ipv6 h

theorem format_ipv6_ne_star : format_ipv6 a ≠ [42] := by
  intro h
  have := colon_mem_format_ipv6 a
  rw [h] at this
  exact absurd this (by decide)

theorem matches_inet6 (hspec : spec ≠ [42])
    (hparse : parse_host_port spec RETRACE_SOCKADDR_IP_LEN = some (format_ipv6 a, port.map UInt16.toNat)) :
    MatchesByAddress spec (.inet6 a) port := by
  rintro sa (⟨b, p, rfl⟩ | ⟨b, p, rfl⟩)
  · obtain ⟨hne, hiff⟩ := match_of_parse inspected_inet hspec hparse
    refine ⟨hne, hiff.trans (iff_of_false ?_ fun h => h)⟩
    rintro ⟨h | h, -⟩
    · exact format_ipv6_ne_star h
    · exact format_ipv4_ne_ipv6 h.symm
  · obtain ⟨hne, hiff⟩ := match_of_parse (inspected_inet6 b p) hspec hparse
    refine ⟨hne, hiff.trans (and_congr_left' ?_)⟩
    rw [or_iff_right format_ipv6_ne_star]
    exact ⟨format_ipv6_inj, fun h => by rw [h]⟩

theorem agrees_self : Agrees (.inet6 a) port (.inet6 a (port.getD 0)) := by
  cases port with
  | none => exact ⟨rfl, by simp⟩
  | some p => exact ⟨rfl, by simp⟩

theorem printed_of_matches (ht : In6Text t a)
    (hs : PortSpec port s) (h : MatchesByAddress (91 :: t ++ 93 :: colon :: s) (.inet6 a) port) :
    t = format_ipv6 a := by
  have hspec : 91 :: t ++ 93 :: colon :: s ≠ [42] := by simp
  have hsa := inspected_inet6 a (port.getD 0)
  obtain ⟨hne, hiff⟩ := h (.inet6 a (port.getD 0)) (.inr ⟨a, port.getD 0, rfl⟩)
  have hone := hiff.mpr agrees_self
  have hparse := parse_literal ht.not_mem.2.2 hs
  split_ifs at hparse with hbad
  · rw [match_of_parse_none hsa hspec hparse] at hone
    cases hone
  · rcases ((match_of_parse hsa hspec hparse).2.mp hone).1 with hstar | hip
    · exact absurd (by rw [hstar]; simp) ht.not_mem.1
    · exact hip

/-- A spec matches by address exactly when an IPv6 address in it is in brackets and as it is printed. -/
theorem match_by_address_iff {spec : Bytes} {host : HostSpec} {port : Option UInt16}
    (h : SpecForm spec host port) : MatchesByAddress spec host port ↔ Printed spec host := by
  cases h with
  | any_port hs =>
    refine iff_of_true (matches_any_host (by simp) ?_) trivial
    exact @parse_plain [42] _ _ (by decide) (by simp) (by decide) (by decide) hs
  | host_port a hs =>
    rename_i s
    refine iff_of_true (matches_inet ?_ (parse_plain colon_not_mem_format_ipv4 format_ipv4_ne_nil
      format_ipv4_head length_format_ipv4 hs)) trivial
    intro heq
    have hmem : colon ∈ format_ipv4 a ++ colon :: s := by simp
    rw [heq] at hmem
    exact absurd hmem (by decide)
  | bare_host a =>
    exact iff_of_true (matches_inet format_ipv4_ne_star (parse_bare colon_not_mem_format_ipv4
      format_ipv4_ne_nil format_ipv4_head length_format_ipv4)) trivial
  | literal_port ht hs =>
    rename_i t s a
    constructor
    · intro h
      exact ⟨colon :: s, by rw [printed_of_matches ht hs h]⟩
    · rintro ⟨rest, hrest⟩
      have hclose : 93 ∉ format_ipv6 a := by
        intro hmem
        rcases mem_format_ipv6 hmem with h | h
        · exact absurd h (by decide)
        · exact absurd h (by decide)
      -- Both texts end at the first closing bracket.
      have hprinted : t = format_ipv6 a := by
        have hcut := congrArg (fun u => (u.tail).takeWhile (· ≠ 93)) hrest
        simp only [cons_append, tail_cons] at hcut
        rwa [takeWhile_ne_append ht.not_mem.2.2, takeWhile_ne_append hclose] at hcut
      have hne : format_ipv6 a ≠ [] := ne_nil_of_mem (colon_mem_format_ipv6 a)
      subst hprinted
      refine matches_inet6 (by simp) ?_
      rw [parse_literal hclose hs, if_neg]
      rintro (h | h)
      · exact hne h
      · exact absurd length_format_ipv6 (not_lt.mpr h)
  | bare_literal ht =>
    rename_i a
    have hhead : spec.head? ≠ some 91 := fun h => ht.not_mem.2.1 (mem_of_mem_head? h)
    have hspec : spec ≠ [42] := by
      rintro rfl
      exact ht.not_mem.1 (by simp)
    refine iff_of_false ?_ ?_
    · intro h
      have hmal := match_of_parse_none (inspected_inet6 a 0) hspec
        (parse_two_colons hhead ht.two_colons)
      exact (h (.inet6 a 0) (.inr ⟨a, 0, rfl⟩)).1 hmal
    · rintro ⟨rest, rfl⟩
      exact hhead rfl

/-- The address `::1`. -/
def loopback : In6Addr := ⟨[0, 0, 0, 0, 0, 0, 0, 1], rfl⟩

theorem portText_80 : PortText (bytes "80") 80 := ⟨by decide, by decide, by decide⟩

/-- An IPv4 spec matches by address. -/
theorem match_inet_80 : MatchesByAddress (format_ipv4 ⟨127, 0, 0, 1⟩ ++ colon :: bytes "80")
    (.inet ⟨127, 0, 0, 1⟩) (some 80) :=
  (match_by_address_iff (SpecForm.host_port ⟨127, 0, 0, 1⟩ (PortSpec.port portText_80))).mpr trivial

/-- `[::1]:80` is a spec for the loopback address and does not match it. -/
theorem loopback_not_denied :
    SpecForm (bytes "[::1]:80") (.inet6 loopback) (some 80) ∧
      retrace_sockaddr_match (retrace_sockaddr_inspect (.inet6 loopback 80)) (bytes "[::1]:80") = 0 := by
  refine ⟨?_, by decide +kernel⟩
  have htext : In6Text (bytes "::1") loopback := by
    have hone : WordTexts [bytes "1"] [1] :=
        WordTexts.cons ⟨by decide, by decide, by decide, by decide⟩ WordTexts.nil
    exact In6Text.compressed 7 WordTexts.nil rfl hone (by decide) rfl
  exact SpecForm.literal_port htext (PortSpec.port portText_80)

end Retrace.Core
