import BareHttp.Foundation.While
import BareHttp.Http.Delivery

/-!
# Sending a file

`send_file` calls `sendfile` until the offset reaches the size of the file.  The kernel moves
the offset, a number of sixty-four bits, and what `sendfile` returns is kept as an `int`, which
is only tested for being positive.

The loop is stated as the source has it, without a bound on its rounds.  It ends
(`ends_sendFileLoop`), and where it ends the bytes given to the socket are those of the file up
to the offset, once and in order (`sendFile_exact`).
-/

namespace BareHttp

/-- `sendfile(clientfd, fd, &offset, len)`: what it returns, and the offset and the world behind
it. -/
def sendfile (content : Bytes) (offset len : ℕ) (w : World) : Int × ℕ × World :=
  let moved := (w.env.sendfile 0).moved content offset len
  let w' := { w with env := { w.env with sendfile := tail w.env.sendfile } }
  match w.env.sendfile 0 with
  | .fail _ => (-1, offset, w')
  | .some _ =>
    if moved = [] then (0, offset, w')
    else (moved.length, offset + moved.length, w'.log (.sendfile moved))

/-- What the loop of `send_file` changes. -/
structure SendState where
  offset : ℕ
  world : World

/-- The loop of `send_file`. -/
def sendLoop (content : Bytes) (size : ℕ) : While.Loop SendState where
  test := fun s => decide (s.offset < size)
  body := fun s =>
    let (ret, offset, w) := sendfile content s.offset (size - s.offset) s.world
    let bytesSent := CInt.toInt32 ret
    if bytesSent ≤ 0 then .stop ⟨offset, w⟩ else .next ⟨offset, w⟩

section Rounds

variable (content : Bytes) (size : ℕ)

/-- A call moves at most what it is asked for, what there is, and what an `int` can count. -/
theorem length_moved_le (r : SendfileResult) (offset len : ℕ) :
    (r.moved content offset len).length ≤ len ∧
      (r.moved content offset len).length ≤ content.length - offset ∧
        (r.moved content offset len).length ≤ sendfileMax := by
  cases r with
  | fail e => simp [SendfileResult.moved]
  | some n =>
    simp only [SendfileResult.moved, List.length_take, List.length_drop]
    omega

/-- A call that moves nothing, because it fails or there is nothing, ends the loop. -/
theorem body_of_moved_eq_nil {offset : ℕ} {w : World}
    (h : (w.env.sendfile 0).moved content offset (size - offset) = []) :
    (sendLoop content size).body ⟨offset, w⟩ =
      .stop ⟨offset, { w with env := { w.env with sendfile := tail w.env.sendfile } }⟩ := by
  simp only [sendLoop, sendfile, h, if_true]
  cases w.env.sendfile 0 with
  | fail e => rfl
  | some n => rfl

/-- Every other call leads to another round: the number of bytes is positive as an `int`,
too. -/
theorem body_of_moved_ne_nil {offset : ℕ} {w : World}
    (h : (w.env.sendfile 0).moved content offset (size - offset) ≠ []) :
    (sendLoop content size).body ⟨offset, w⟩ =
      .next ⟨offset + ((w.env.sendfile 0).moved content offset (size - offset)).length,
        World.log { w with env := { w.env with sendfile := tail w.env.sendfile } }
          (.sendfile ((w.env.sendfile 0).moved content offset (size - offset)))⟩ := by
  have hpos := List.length_pos_of_ne_nil h
  obtain ⟨-, -, hmax⟩ := length_moved_le content (w.env.sendfile 0) offset (size - offset)
  simp only [sendLoop, sendfile]
  cases hr : w.env.sendfile 0 with
  | fail e => exact absurd (by rw [hr]; rfl) h
  | some n =>
    rw [hr] at h hpos hmax
    simp only [if_neg h]
    generalize (SendfileResult.some n).moved content offset (size - offset) = moved at *
    have hint : CInt.toInt32 moved.length = moved.length :=
      CInt.toInt32_of_mem (by omega) (by rw [sendfileMax] at hmax; omega)
    rw [hint, if_neg (by omega)]

/-- **The loop ends**, and the loop with a bound on its rounds does what it does. -/
theorem ends_sendFileLoop (fuel offset : ℕ) (w : World) (hfuel : size ≤ offset + fuel) :
    While.Ends (sendLoop content size) ⟨offset, w⟩
      ⟨(sendFileLoop content size fuel offset w).1,
        (sendFileLoop content size fuel offset w).2⟩ := by
  induction fuel generalizing offset w with
  | zero => exact .leave (by simpa [sendLoop] using hfuel)
  | succ fuel ih =>
    simp only [sendFileLoop]
    by_cases hlt : offset < size
    · have htest : (sendLoop content size).test ⟨offset, w⟩ = true := by simpa [sendLoop] using hlt
      rw [if_pos hlt]
      by_cases hmoved : (w.env.sendfile 0).moved content offset (size - offset) = []
      · rw [if_pos hmoved]
        exact .stop htest (body_of_moved_eq_nil content size hmoved)
      · rw [if_neg hmoved]
        have hpos := List.length_pos_of_ne_nil hmoved
        exact .next htest (body_of_moved_ne_nil content size hmoved) (ih _ _ (by omega))
    · rw [if_neg hlt]
      exact .leave (by simpa [sendLoop] using hlt)

/-- What holds in front of every round: the bytes up to the offset have been sent, and the
offset is inside the file and its size. -/
structure SentTo (start : Bytes) (s : SendState) : Prop where
  sent : s.world.sent = start ++ content.take s.offset
  offset_le_size : s.offset ≤ size
  offset_le_length : s.offset ≤ content.length

/-- One call sends the next bytes. -/
theorem SentTo.moved {start : Bytes} {offset : ℕ} {w : World}
    (h : SentTo content size start ⟨offset, w⟩) :
    SentTo content size start
      ⟨offset + ((w.env.sendfile 0).moved content offset (size - offset)).length,
        World.log { w with env := { w.env with sendfile := tail w.env.sendfile } }
          (.sendfile ((w.env.sendfile 0).moved content offset (size - offset)))⟩ := by
  obtain ⟨hsent, hsize, hlength⟩ := h
  obtain ⟨hlen, havail, -⟩ := length_moved_le content (w.env.sendfile 0) offset (size - offset)
  have htake := moved_eq_take content (w.env.sendfile 0) offset (size - offset)
  generalize (w.env.sendfile 0).moved content offset (size - offset) = moved at *
  simp only at hsent hsize hlength
  refine ⟨?_, by show offset + moved.length ≤ size; omega,
    by show offset + moved.length ≤ content.length; omega⟩
  calc acceptedBytes (w.trace ++ [.sendfile moved])
      = w.sent ++ moved := by simp [acceptedBytes_append, acceptedBytes, World.sent]
    _ = start ++ (content.take offset ++ moved) := by rw [hsent, List.append_assoc]
    _ = start ++ content.take (offset + moved.length) := by rw [List.take_add, ← htake]

/-- **Every round keeps it**, so it holds where the loop ends. -/
theorem exists_ends_sendLoop {start : Bytes} {s : SendState}
    (h : SentTo content size start s) :
    ∃ t, While.Ends (sendLoop content size) s t ∧ SentTo content size start t := by
  refine While.exists_ends (SentTo content size start) (SentTo content size start)
    (fun s => size - s.offset) (fun s hs _ => hs) ?_ h
  rintro ⟨offset, w⟩ hs htest
  have hlt : offset < size := by simpa [sendLoop] using htest
  by_cases hmoved : (w.env.sendfile 0).moved content offset (size - offset) = []
  · exact .inl ⟨_, body_of_moved_eq_nil content size hmoved,
      hs.sent, hs.offset_le_size, hs.offset_le_length⟩
  · have hpos := List.length_pos_of_ne_nil hmoved
    refine .inr ⟨_, body_of_moved_ne_nil content size hmoved, hs.moved, ?_⟩
    simp only
    omega

end Rounds

/-- **`send_file` is exact.**  Where the file opens and has a size, the loop ends, in one way;
the bytes given to the socket are those of the file up to the offset it ends at, and the value
returned says whether this is the size.  Where it does not, nothing is sent. -/
theorem sendFile_exact (path : Bytes) (w : World) :
    match w.env.openat2 0, w.env.fstat 0 with
    | .ok f, some st =>
      ∃ start stop : SendState,
        start.offset = 0 ∧ SocketUntouched w start.world ∧
          (∀ t, While.Ends (sendLoop f.content st.stSize) start t ↔ t = stop) ∧
          stop.offset ≤ st.stSize ∧ stop.offset ≤ f.content.length ∧
          (sendFile path w).2.sent = w.sent ++ f.content.take stop.offset ∧
          (sendFile path w).1 = if stop.offset = st.stSize then 0 else -1
    | _, _ => (sendFile path w).1 = -1 ∧ (sendFile path w).2.sent = w.sent := by
  obtain ⟨w₁, hopen, henv₁, hu₁⟩ := openSafe_spec path w
  obtain ⟨w₂, hstat, henv₂, hu₂⟩ := fstat_spec w₁
  simp only [henv₁] at hstat
  replace hu₂ := hu₁.trans hu₂
  unfold sendFile
  simp only [hopen]
  cases w.env.openat2 0 with
  | error e => exact ⟨rfl, hu₁.sent_eq⟩
  | ok f =>
    simp only [hstat]
    cases w.env.fstat 0 with
    | none => exact ⟨rfl, by rw [World.sent_close, hu₂.sent_eq]⟩
    | some st =>
      have hends := ends_sendFileLoop f.content st.stSize st.stSize 0 w₂ (by omega)
      have hstart : SentTo f.content st.stSize w.sent ⟨0, w₂⟩ :=
        ⟨by simp [hu₂.sent_eq], Nat.zero_le _, Nat.zero_le _⟩
      obtain ⟨t, ht, hsent⟩ := exists_ends_sendLoop f.content st.stSize hstart
      obtain rfl := ht.unique hends
      obtain ⟨hsent, hsize, hlength⟩ := hsent
      refine ⟨⟨0, w₂⟩, _, rfl, hu₂, hends.iff_eq, hsize, hlength, ?_, ?_⟩
      · simp only
        split_ifs
        · exact hsent
        · rw [World.sent_close]
          exact hsent
      · simp only at hsize ⊢
        rcases Nat.lt_or_eq_of_le hsize with hlt | heq
        · rw [if_pos hlt, if_neg (Nat.ne_of_lt hlt)]
        · rw [if_neg (Nat.not_lt.mpr (Nat.le_of_eq heq.symm)), if_pos heq]

end BareHttp
