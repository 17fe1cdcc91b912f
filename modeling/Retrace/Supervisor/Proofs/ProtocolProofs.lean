import Retrace.Supervisor.Protocol

/-!
# Frames read back
-/

namespace Retrace.Rpc

open CLib Framing List

variable {s : Bytes}

theorem get_put_u16le : get_u16le (put_u16le v ++ t) = v := by
  have hv := v.toNat_lt
  apply UInt16.toNat.inj
  simp only [get_u16le, put_u16le, cons_append, nil_append, getD_cons_zero,
    getD_cons_succ, Nat.toUInt16, Nat.toUInt8, UInt16.toNat_ofNat', UInt8.toNat_ofNat']
  omega

theorem get_put_u32le (v : UInt32) (t : Bytes) : get_u32le (put_u32le v ++ t) = v := by
  have hv := v.toNat_lt
  apply UInt32.toNat.inj
  simp only [get_u32le, put_u32le, cons_append, nil_append, getD_cons_zero,
    getD_cons_succ, Nat.toUInt32, Nat.toUInt8, UInt32.toNat_ofNat', UInt8.toNat_ofNat']
  omega

theorem put_get_u16le : put_u16le (get_u16le (a :: b :: t)) = [a, b] := by
  have ha := a.toNat_lt
  have hb := b.toNat_lt
  simp only [get_u16le, put_u16le, getD_cons_zero, getD_cons_succ, Nat.toUInt16, Nat.toUInt8,
    UInt16.toNat_ofNat', List.cons.injEq, and_true]
  constructor
  · apply UInt8.toNat.inj
    rw [UInt8.toNat_ofNat']
    omega
  · apply UInt8.toNat.inj
    rw [UInt8.toNat_ofNat']
    omega

theorem put_get_u32le : put_u32le (get_u32le (a :: b :: c :: d :: t)) = [a, b, c, d] := by
  have ha := a.toNat_lt
  have hb := b.toNat_lt
  have hc := c.toNat_lt
  have hd := d.toNat_lt
  simp only [get_u32le, put_u32le, getD_cons_zero, getD_cons_succ, Nat.toUInt32, Nat.toUInt8,
    UInt32.toNat_ofNat', List.cons.injEq, and_true]
  refine ⟨?_, ?_, ?_, ?_⟩ <;> apply UInt8.toNat.inj <;> rw [UInt8.toNat_ofNat'] <;> omega

@[simp]
theorem header_length (fr : RpcFrame) : (header fr).length = 12 := rfl

theorem decode_header (hn : 12 ≤ n) : retrace_rpc_frame_decode (some (header fr ++ t)) n =
      if RETRACE_RPC_PAYLOAD_MAX < fr.length.toNat then .error (-4) else .ok fr := by
  have hmagic : (header fr ++ t).take 4 = RETRACE_RPC_MAGIC := rfl
  have hversion : get_u16le ((header fr ++ t).drop 4) = fr.version :=
    get_put_u16le
  have htype : get_u16le ((header fr ++ t).drop 6) = fr.type :=
    get_put_u16le
  have hlength : get_u32le ((header fr ++ t).drop 8) = fr.length := get_put_u32le fr.length t
  have hshort : ¬ n < RETRACE_RPC_HEADER_SZ := by
    unfold RETRACE_RPC_HEADER_SZ
    omega
  simp only [retrace_rpc_frame_decode, hshort, if_false, hmagic, ne_eq, not_true, hversion, htype, hlength]

theorem exists_header (hlen : 12 ≤ s.length) (hmagic : s.take 4 = RETRACE_RPC_MAGIC) :
    ∃ t, s = header ⟨get_u16le (s.drop 4), get_u16le (s.drop 6), get_u32le (s.drop 8)⟩ ++ t := by
  match s, hlen, hmagic with
  | a :: b :: c :: d :: e :: f :: g :: h :: i :: j :: k :: l :: t, _, hmagic =>
    refine ⟨t, ?_⟩
    simp only [drop_succ_cons, drop_zero, header, put_get_u16le, put_get_u32le, ← hmagic]
    simp

theorem decode_eq_ok : retrace_rpc_frame_decode (some s) s.length = .ok fr ↔
      fr.length.toNat ≤ RETRACE_RPC_PAYLOAD_MAX ∧ ∃ t, s = header fr ++ t := by
  constructor
  · intro h
    by_cases hlen : s.length < 12
    · simp [retrace_rpc_frame_decode, RETRACE_RPC_HEADER_SZ, hlen] at h
    by_cases hmagic : s.take 4 = RETRACE_RPC_MAGIC
    · obtain ⟨t, ht⟩ := exists_header (by omega) hmagic
      rw [ht, decode_header (by simp)] at h
      split at h
      · cases h
      · next hle =>
        cases h
        exact ⟨by omega, t, ht⟩
    · simp [retrace_rpc_frame_decode, RETRACE_RPC_HEADER_SZ, hlen, hmagic] at h
  · rintro ⟨hle, t, rfl⟩
    rw [decode_header (by simp), if_neg (by omega)]

theorem decode_take (hk : 12 ≤ k) :
    retrace_rpc_frame_decode (some s) n = retrace_rpc_frame_decode (some (s.take k)) n := by
  have hget : ∀ i < 12, (s.take k)[i]? = s[i]? := fun i hi => getElem?_take_of_lt (by omega)
  have hmagic : (s.take k).take 4 = s.take 4 := by rw [take_take, Nat.min_eq_left (by omega)]
  simp only [retrace_rpc_frame_decode, hmagic, get_u16le, get_u32le, getD_eq_getElem?_getD,
    getElem?_drop, hget _ (by omega : 4 + 0 < 12), hget _ (by omega : 4 + 1 < 12),
    hget _ (by omega : 6 + 0 < 12), hget _ (by omega : 6 + 1 < 12), hget _ (by omega : 8 + 0 < 12),
    hget _ (by omega : 8 + 1 < 12), hget _ (by omega : 8 + 2 < 12), hget _ (by omega : 8 + 3 < 12)]

theorem decode_encode (h : retrace_rpc_frame_encode out out_cap version type payload payload_len = (0, out'))
    (hn : 12 ≤ n) : retrace_rpc_frame_decode out' n = .ok ⟨version, type, payload_len⟩ := by
  unfold retrace_rpc_frame_encode at h
  cases out with
  | none => simp at h
  | some out =>
    simp only at h
    split_ifs at h with hmax hnull hcap
    · cases h
    · cases h
    · cases h
    · cases h
      rw [memcpy, take_zero, nil_append, append_assoc, decode_header hn, if_neg hmax]

theorem nextFrame_eq_some : nextFrame s = some (m, r) ↔ m.Ok ∧ s = m.wire ++ r := by
  constructor
  · intro h
    unfold nextFrame at h
    split at h
    · cases h
    · next fr hdec =>
      obtain ⟨hle, t, rfl⟩ := decode_eq_ok.mp hdec
      split at h
      · next hcomplete =>
        have hdrop : (header fr ++ t).drop RETRACE_RPC_HEADER_SZ = t := by
          rw [RETRACE_RPC_HEADER_SZ, ← header_length fr, drop_left]
        have hdrop' : (header fr ++ t).drop (RETRACE_RPC_HEADER_SZ + fr.length.toNat) =
            t.drop fr.length.toNat := by rw [← drop_drop, hdrop]
        rw [hdrop, hdrop'] at h
        cases h
        have hlen : fr.length.toNat ≤ t.length := by
          simp only [length_append, header_length, RETRACE_RPC_HEADER_SZ] at hcomplete
          omega
        refine ⟨⟨by simp [hlen], ?_⟩, ?_⟩
        · simpa [hlen] using hle
        · simp [Message.wire]
      · cases h
  · rintro ⟨⟨hlen, hmax⟩, rfl⟩
    obtain ⟨fr, p⟩ := m
    simp only at hlen hmax
    have hdec : retrace_rpc_frame_decode (some ((⟨fr, p⟩ : Message).wire ++ r))
        ((⟨fr, p⟩ : Message).wire ++ r).length = .ok fr :=
      decode_eq_ok.mpr ⟨by omega, p ++ r, by simp [Message.wire]⟩
    have hdrop : (header fr ++ (p ++ r)).drop RETRACE_RPC_HEADER_SZ = p ++ r := by
      rw [RETRACE_RPC_HEADER_SZ, ← header_length fr, drop_left]
    have hcomplete : RETRACE_RPC_HEADER_SZ + p.length ≤ (header fr ++ (p ++ r)).length := by
      simp only [length_append, header_length, RETRACE_RPC_HEADER_SZ]
      omega
    rw [nextFrame, hdec]
    simp only [Message.wire, append_assoc, hcomplete, if_true, hdrop, ← drop_drop, ← hlen, take_left, drop_left]

def frameFramer : Framer UInt8 Message where
  next := nextFrame
  shrinks {s m r} h := by
    obtain ⟨-, rfl⟩ := nextFrame_eq_some.mp h
    simp only [Message.wire, length_append, header_length]
    omega
  stable {s m r} h t := by
    obtain ⟨hok, rfl⟩ := nextFrame_eq_some.mp h
    exact nextFrame_eq_some.mpr ⟨hok, by simp⟩

section

variable {b : RecvBuffer cap}

@[simp]
theorem content_length (b : RecvBuffer cap) : b.content.length = b.fill := by
  have := b.size
  have := b.fits
  rw [RecvBuffer.content, length_take]
  omega

theorem append_content (h : b.fill + d.length ≤ cap) : (b.append d h).content = b.content ++ d :=
  take_memcpy (by rw [b.size]; exact b.fits)

theorem shift_content (h : k ≤ b.fill) : (b.shift k h).content = b.content.drop k := by
  have := b.size
  have := b.fits
  show (memmove b.buf k (b.fill - k)).take (b.fill - k) = _
  rw [take_memmove (by omega), RecvBuffer.content, drop_take]

theorem decode_content (h : 12 ≤ b.fill) : retrace_rpc_frame_decode (some b.buf) b.fill =
      retrace_rpc_frame_decode (some b.content) b.content.length := by
  rw [content_length, RecvBuffer.content, ← decode_take h]

end

end Retrace.Rpc
