import Javelin.WireLaws

/-! # Frames on a stream

`write_frame` puts a length of four bytes before an encoded message.  `read_frame` takes a frame from a reader that
delivers its bytes in any pieces.  Whatever the pieces are, a read takes the bytes it asks for or all that are left
(`fill_eq`), so the frames of a stream that ends anywhere come back one by one, and its end is told from a cut
(`framing`).  The messages come back as the codec returns them; one that the codec writes but does not read ends
the session (`frames_refused`). -/

namespace Javelin.Wire

open Bytes Protocol

/-! ### Streams -/

/-- What a call of `read` on the reader does: it is interrupted, or it gives at most one byte more than so many. -/
inductive Delivery where
  | interrupted
  | bytes (more : ℕ)

/-- A reader: its bytes, what the next calls do, and the buffers that were allocated for bodies, the last one first.
After the planned calls it gives all it is asked for. -/
structure Stream where
  bytes : Str
  plan : List Delivery
  allocated : List ℕ

namespace Stream

/-- `Read::read` into a buffer of this size; `none` is an interruption. -/
def read (room : ℕ) (s : Stream) : Option Str × Stream :=
  match s.plan with
  | .interrupted :: plan => (none, { s with plan := plan })
  | .bytes more :: plan =>
      (some (s.bytes.take (min room (more + 1))),
        { s with bytes := s.bytes.drop (min room (more + 1)), plan := plan })
  | [] => (some (s.bytes.take room), { s with bytes := s.bytes.drop room })

/-- The reads of a loop that wants so many bytes get on: there are fewer planned calls, or fewer bytes wanted. -/
theorem read_less {want : ℕ} {s s' : Stream} {got : Option Str} (h : s.read want = (got, s')) (hw : want ≠ 0) :
    (got = none → s'.plan.length + want < s.plan.length + want) ∧
      (∀ bs, got = some bs → bs ≠ [] → s'.plan.length + (want - bs.length) < s.plan.length + want) := by
  unfold read at h
  split at h
  · rename_i plan hp
    cases h
    rw [hp]
    exact ⟨fun _ => by simp, fun bs hbs => by cases hbs⟩
  · rename_i more plan hp
    cases h
    rw [hp]
    refine ⟨fun hn => (by cases hn), fun bs _ _ => ?_⟩
    dsimp only
    rw [List.length_cons]
    omega
  · rename_i hp
    cases h
    rw [hp]
    refine ⟨fun hn => (by cases hn), fun bs _ hne => ?_⟩
    have hpos := List.length_pos_iff.mpr hne
    rw [List.length_nil]
    omega

/-- What a call of `read` gives, from the front. -/
theorem read_front {room : ℕ} {s s' : Stream} {got : Option Str} (h : s.read room = (got, s')) :
    s'.allocated = s.allocated ∧ (got = none → s'.bytes = s.bytes) ∧ (∀ bs, got = some bs →
      ∃ n ≤ room, (room ≠ 0 → n ≠ 0) ∧ bs = s.bytes.take n ∧ s'.bytes = s.bytes.drop n) := by
  unfold read at h
  split at h
  · cases h
    exact ⟨rfl, fun _ => rfl, fun bs hbs => (by cases hbs)⟩
  · rename_i more plan hp
    cases h
    refine ⟨rfl, fun hn => (by cases hn), fun bs hbs => ?_⟩
    cases hbs
    exact ⟨min room (more + 1), Nat.min_le_left _ _, by omega, rfl, rfl⟩
  · cases h
    refine ⟨rfl, fun hn => (by cases hn), fun bs hbs => ?_⟩
    cases hbs
    exact ⟨room, le_refl _, fun h => h, rfl, rfl⟩

end Stream

/-- The loop that fills a buffer: it goes on after an interruption, and ends with what it has when the reader gives
no byte. -/
def fill (want : ℕ) (s : Stream) : Str × Stream :=
  if _hw : want = 0 then ([], s)
  else match _h : s.read want with
    | (none, s') => fill want s'
    | (some [], s') => ([], s')
    | (some (b :: bs), s') =>
        let (rest, s'') := fill (want - (b :: bs).length) s'
        ((b :: bs) ++ rest, s'')
termination_by s.plan.length + want
decreasing_by
  · exact (Stream.read_less _h _hw).1 rfl
  · exact (Stream.read_less _h _hw).2 _ rfl (List.cons_ne_nil b bs)

/-- What a first read leaves of the bytes, and the reads after it. -/
theorem take_then {α : Type} (l : List α) {n want : ℕ} (h : n ≤ want) :
    l.take n ++ (l.drop n).take (want - (l.take n).length) = l.take want ∧
      (l.drop n).drop (want - (l.take n).length) = l.drop want := by
  rw [List.length_take]
  rcases Nat.le_total n l.length with hn | hn
  · rw [Nat.min_eq_left hn]
    obtain ⟨k, rfl⟩ := Nat.exists_eq_add_of_le h
    rw [Nat.add_sub_cancel_left, ← List.take_add, List.drop_drop]
    exact ⟨rfl, rfl⟩
  · rw [List.drop_of_length_le hn, List.take_of_length_le hn, List.take_of_length_le (le_trans hn h),
      List.drop_of_length_le (le_trans hn h), List.take_nil, List.append_nil, List.drop_nil]
    exact ⟨rfl, rfl⟩

/-- The loop takes what it wants, or all that is left. -/
theorem fill_eq (want : ℕ) (s : Stream) : (fill want s).1 = s.bytes.take want ∧
    (fill want s).2.bytes = s.bytes.drop want ∧ (fill want s).2.allocated = s.allocated := by
  induction want, s using fill.induct with
  | case1 s =>
      rw [fill, dif_pos rfl]
      simp
  | case2 want s hw s' hread ih =>
      obtain ⟨halloc, hbytes, _⟩ := Stream.read_front hread
      rw [fill, dif_neg hw, hread]
      dsimp only
      rw [ih.1, ih.2.1, ih.2.2, hbytes rfl, halloc]
      exact ⟨rfl, rfl, rfl⟩
  | case3 want s hw s' hread =>
      obtain ⟨halloc, _, hbytes⟩ := Stream.read_front hread
      obtain ⟨n, hn, hpos, hnil, hrest⟩ := hbytes [] rfl
      rw [fill, dif_neg hw, hread]
      dsimp only
      have hempty : s.bytes = [] := by
        have hlen := congrArg List.length hnil
        rw [List.length_nil, List.length_take] at hlen
        have hn0 := hpos hw
        exact List.length_eq_zero_iff.mp (by omega)
      rw [hrest, hempty, halloc]
      simp
  | case4 want s hw b bs s' hread rest s'' hfill ih =>
      obtain ⟨halloc, _, hbytes⟩ := Stream.read_front hread
      obtain ⟨n, hn, _, htake, hrest⟩ := hbytes (b :: bs) rfl
      obtain ⟨hfront, hback⟩ := take_then s.bytes hn
      rw [← htake, ← hrest] at hfront hback
      rw [fill, dif_neg hw, hread]
      dsimp only
      rw [ih.1, ih.2.1, ih.2.2, halloc]
      exact ⟨hfront, hback, rfl⟩

/-! ### Frames -/

/-- The bytes of a frame. -/
def frame (body : Str) : Str := toBe 4 body.length ++ body

/-- Writes one frame.  Oversize messages are refused before encoding. -/
def writeFrame (message : Message) : Except ProtocolError Str := do
  let body ← encode message
  return frame body

/-- Reads one frame; no message is a clean end of the stream at a frame boundary. -/
def readFrame (s : Stream) : Except ProtocolError (Option Message) × Stream :=
  let (header, s) := fill 4 s
  if header = [] then (.ok none, s)
  else if header.length < 4 then (.error truncated, s)
  else
    let len := ofBe header
    if len = 0 then (.error (malformed "empty frame"), s)
    else if MAX_FRAME < len then (.error (limit "frame exceeds size limit"), s)
    else
      let (body, s) := fill len { s with allocated := len :: s.allocated }
      if body.length < len then (.error truncated, s) else ((decode body).map some, s)

/-- Frames are read until the stream ends or a frame is refused: the messages, and how it ended. -/
def readFrames : ℕ → Stream → List Message × Option (Except ProtocolError Unit)
  | 0, _ => ([], none)
  | fuel + 1, s =>
      match readFrame s with
      | (.ok none, _) => ([], some (.ok ()))
      | (.error e, _) => ([], some (.error e))
      | (.ok (some m), s) =>
          let (ms, ended) := readFrames fuel s
          (m :: ms, ended)

theorem exists_fill (want : ℕ) (s : Stream) : ∃ s', fill want s = (s.bytes.take want, s') ∧
    s'.bytes = s.bytes.drop want ∧ s'.allocated = s.allocated :=
  ⟨(fill want s).2, Prod.ext (fill_eq want s).1 rfl, (fill_eq want s).2⟩

theorem length_frame (body : Str) : (frame body).length = 4 + body.length := by
  unfold frame
  rw [List.length_append, length_toBe]

/-- The clean end of a stream. -/
theorem readFrame_nil {s : Stream} (h : s.bytes = []) : (readFrame s).1 = .ok none := by
  obtain ⟨s₁, hfill, _⟩ := exists_fill 4 s
  unfold readFrame
  rw [hfill, h, List.take_nil]
  rfl

/-- A stream that ends in the header. -/
theorem readFrame_short {s : Stream} (hne : s.bytes ≠ []) (hshort : s.bytes.length < 4) :
    (readFrame s).1 = .error truncated := by
  obtain ⟨s₁, hfill, _⟩ := exists_fill 4 s
  rw [List.take_of_length_le (le_of_lt hshort)] at hfill
  unfold readFrame
  rw [hfill]
  dsimp only
  rw [if_neg hne, if_pos hshort]

/-- A stream with a header that announces a body within the limit. -/
theorem readFrame_header {s : Stream} {len : ℕ} {rest : Str} (h : s.bytes = toBe 4 len ++ rest) (hpos : len ≠ 0)
    (hle : len ≤ MAX_FRAME) : (readFrame s).2.bytes = rest.drop len ∧
      (readFrame s).2.allocated = len :: s.allocated ∧
      (readFrame s).1 = if rest.length < len then .error truncated else (decode (rest.take len)).map some := by
  obtain ⟨s₁, hfill, hbytes, halloc⟩ := exists_fill 4 s
  have hlen4 := length_toBe 4 len
  have hlt : len < 256 ^ 4 := by
    unfold MAX_FRAME at hle
    omega
  rw [h, List.take_left' hlen4] at hfill
  rw [h, List.drop_left' hlen4] at hbytes
  have hne : toBe 4 len ≠ [] := by
    intro h0
    rw [h0] at hlen4
    cases hlen4
  obtain ⟨s₂, hfill₂, hbytes₂, halloc₂⟩ := exists_fill len { s₁ with allocated := len :: s₁.allocated }
  rw [hbytes] at hfill₂ hbytes₂
  unfold readFrame
  rw [hfill]
  dsimp only
  rw [if_neg hne, if_neg (by omega), ofBe_toBe hlt, if_neg hpos, if_neg (by omega), hbytes, hfill₂]
  dsimp only
  rw [List.length_take, ← halloc]
  by_cases hshort : rest.length < len
  · rw [if_pos (by omega), if_pos hshort]
    exact ⟨hbytes₂, halloc₂, rfl⟩
  · rw [if_neg (by omega), if_neg hshort]
    exact ⟨hbytes₂, halloc₂, rfl⟩

/-- A complete frame within the limit at the front of a stream. -/
theorem readFrame_frame {s : Stream} {body rest : Str} (h : s.bytes = frame body ++ rest) (hne : body ≠ [])
    (hle : body.length ≤ MAX_FRAME) : (readFrame s).1 = (decode body).map some ∧ (readFrame s).2.bytes = rest := by
  unfold frame at h
  rw [List.append_assoc] at h
  obtain ⟨hbytes, _, hresult⟩ := readFrame_header h (List.length_pos_iff.mpr hne).ne' hle
  rw [List.drop_left] at hbytes
  rw [List.take_left, if_neg (by rw [List.length_append]; omega)] at hresult
  exact ⟨hresult, hbytes⟩

theorem readFrame_cut {s : Stream} {body : Str} {n : ℕ} (h : s.bytes = (frame body).take n) (hn : n ≠ 0)
    (hcut : n < (frame body).length) (hne : body ≠ []) (hle : body.length ≤ MAX_FRAME) :
    (readFrame s).1 = .error truncated := by
  have hlen : s.bytes.length = n := by rw [h, List.length_take, Nat.min_eq_left (le_of_lt hcut)]
  rw [length_frame] at hcut
  rcases Nat.lt_or_ge n 4 with hshort | hlong
  · refine readFrame_short (fun h0 => ?_) (by omega)
    rw [h0] at hlen
    exact hn hlen.symm
  · -- the header is whole, and the body is cut
    have hsplit : s.bytes = toBe 4 body.length ++ body.take (n - 4) := by
      rw [h, frame, List.take_append, length_toBe, List.take_of_length_le (by rw [length_toBe]; omega)]
    obtain ⟨_, _, hresult⟩ := readFrame_header hsplit (List.length_pos_iff.mpr hne).ne' hle
    rw [hresult, if_pos (by rw [List.length_take]; omega)]

/-- Whatever the bytes are: what is allocated is within the limit, and an accepted message is what a whole body
within the limit decodes to. -/
theorem readFrame_bounded (s : Stream) :
    (∀ n ∈ (readFrame s).2.allocated, n ∈ s.allocated ∨ n ≤ MAX_FRAME) ∧
      (∀ m, (readFrame s).1 = .ok (some m) → ∃ body : Str, body.length ≤ MAX_FRAME ∧ decode body = .ok m ∧
        s.bytes = frame body ++ (readFrame s).2.bytes) := by
  obtain ⟨s₁, hfill, hbytes, halloc⟩ := exists_fill 4 s
  by_cases hlen : 4 ≤ s.bytes.length ∧ ofBe (s.bytes.take 4) ≠ 0 ∧ ofBe (s.bytes.take 4) ≤ MAX_FRAME
  · obtain ⟨hfour, hpos, hle⟩ := hlen
    have hheader : (s.bytes.take 4).length = 4 := by rw [List.length_take, Nat.min_eq_left hfour]
    have hsplit : s.bytes = toBe 4 (ofBe (s.bytes.take 4)) ++ s.bytes.drop 4 := by
      have hback := toBe_ofBe (s.bytes.take 4)
      rw [hheader] at hback
      rw [hback, List.take_append_drop]
    obtain ⟨hrest, halloc₂, hresult⟩ := readFrame_header hsplit hpos hle
    refine ⟨fun n hn => ?_, fun m hm => ?_⟩
    · rw [halloc₂, List.mem_cons] at hn
      rcases hn with rfl | hn
      · exact Or.inr hle
      · exact Or.inl hn
    · rw [hresult] at hm
      split at hm
      · cases hm
      · rename_i hwhole
        have htake : ((s.bytes.drop 4).take (ofBe (s.bytes.take 4))).length = ofBe (s.bytes.take 4) := by
          rw [List.length_take]
          omega
        refine ⟨(s.bytes.drop 4).take (ofBe (s.bytes.take 4)), by omega, ?_, ?_⟩
        · cases hdecode : decode ((s.bytes.drop 4).take (ofBe (s.bytes.take 4))) with
          | error e =>
              rw [hdecode] at hm
              cases hm
          | ok m' =>
              rw [hdecode] at hm
              cases hm
              rfl
        · rw [hrest, frame, htake, List.append_assoc, List.take_append_drop]
          exact hsplit
  · -- nothing is read behind such a header
    have hrefused : (readFrame s).2 = s₁ ∧ ∀ m, (readFrame s).1 ≠ .ok (some m) := by
      unfold readFrame
      rw [hfill]
      dsimp only
      split
      · exact ⟨rfl, fun m h => (by cases h)⟩
      · split
        · exact ⟨rfl, fun m h => (by cases h)⟩
        · split
          · exact ⟨rfl, fun m h => (by cases h)⟩
          · rename_i hfour hpos
            rw [List.length_take] at hfour
            rw [if_pos (by
              by_contra hle
              exact hlen ⟨by omega, hpos, by omega⟩)]
            exact ⟨rfl, fun m h => (by cases h)⟩
    refine ⟨fun n hn => ?_, fun m hm => absurd hm (hrefused.2 m)⟩
    rw [hrefused.1, halloc] at hn
    exact Or.inl hn

/-! ### Streams of frames -/

theorem body_ne_nil (m : Message) : body m ≠ [] := by
  cases m with
  | outcome o => cases o <;> exact List.cons_ne_nil _ _
  | layerOutcome o => cases o <;> exact List.cons_ne_nil _ _
  | publishOutcome o => cases o <;> exact List.cons_ne_nil _ _
  | reviewOutcome o => cases o <;> exact List.cons_ne_nil _ _
  | checkOutcome o => cases o <;> exact List.cons_ne_nil _ _
  | _ => exact List.cons_ne_nil _ _

/-- What a message leaves on the stream. -/
theorem writeFrame_eq_ok {m : Message} {bytes : Str} (h : writeFrame m = .ok bytes) : ∃ body, encode m = .ok body ∧
    bytes = frame body ∧ body ≠ [] ∧ body.length ≤ MAX_FRAME := by
  unfold writeFrame at h
  rw [except_bind_eq_ok] at h
  obtain ⟨b, hencode, hb⟩ := h
  cases hb
  obtain ⟨hs, hle, rfl⟩ := encode_eq_ok.mp hencode
  exact ⟨body m, hencode, rfl, body_ne_nil m, le_trans (length_body_le m) hle⟩

theorem exists_of_mapM_cons {ms : List Message} {f : Str} {frames : List Str}
    (h : ms.mapM writeFrame = .ok (f :: frames)) : ∃ m rest, ms = m :: rest ∧ writeFrame m = .ok f ∧
      rest.mapM writeFrame = .ok frames := by
  cases ms with
  | nil => cases h
  | cons m rest =>
      rw [List.mapM_cons, except_bind_eq_ok] at h
      obtain ⟨f', hf, h⟩ := h
      rw [except_bind_eq_ok] at h
      obtain ⟨frames', hframes, h⟩ := h
      cases h
      exact ⟨m, rest, rfl, hf, hframes⟩

/-- A cut of some frames one after the other: so many frames are whole. -/
structure Cut (frames : List Str) (cut c : ℕ) : Prop where
  known : c ≤ frames.length
  whole : (frames.take c).flatten.length ≤ cut
  last : ∀ d, c < d → d ≤ frames.length → cut < (frames.take d).flatten.length

/-- The frames that are whole are read one by one; then the stream ends, at a boundary or in a frame. -/
theorem readFrames_cut (frames : List Str) : ∀ (ms : List Message), ms.mapM writeFrame = .ok frames →
    (∀ m ∈ ms, Proper m) → ∀ cut ≤ frames.flatten.length, ∃ c read, Cut frames cut c ∧
      List.Forall₂ Returns (ms.take c) read ∧ ∀ (s : Stream) (fuel : ℕ), s.bytes = frames.flatten.take cut →
        c < fuel → readFrames fuel s =
          (read, some (if (frames.take c).flatten.length = cut then .ok () else .error truncated)) := by
  induction frames with
  | nil =>
      intro ms hms _ cut hcut
      refine ⟨0, [], ⟨le_refl _, Nat.zero_le _, fun d hd hle => ?_⟩, List.Forall₂.nil, fun s fuel hs hfuel => ?_⟩
      · rw [List.length_nil] at hle
        omega
      · obtain ⟨fuel, rfl⟩ := Nat.exists_eq_succ_of_ne_zero hfuel.ne'
        rw [List.flatten_nil, List.take_nil] at hs
        have hcut0 : cut = 0 := Nat.le_zero.mp hcut
        have hend := readFrame_nil hs
        unfold readFrames
        rcases hread : readFrame s with ⟨result, s'⟩
        rw [hread] at hend
        rw [show result = .ok none from hend, hcut0]
        rfl
  | cons f frames ih =>
      intro ms hms hproper cut hcut
      obtain ⟨m, ms, rfl, hm, htail⟩ := exists_of_mapM_cons hms
      obtain ⟨b, hencode, rfl, hne, hle⟩ := writeFrame_eq_ok hm
      rw [List.flatten_cons, List.length_append] at hcut
      rcases Nat.lt_or_ge cut (frame b).length with hshort | hlong
      · refine ⟨0, [], ⟨Nat.zero_le _, Nat.zero_le _, fun d hd _ => ?_⟩, List.Forall₂.nil,
          fun s fuel hs hfuel => ?_⟩
        · obtain ⟨d, rfl⟩ := Nat.exists_eq_succ_of_ne_zero hd.ne'
          rw [List.take_succ_cons, List.flatten_cons, List.length_append]
          omega
        · obtain ⟨fuel, rfl⟩ := Nat.exists_eq_succ_of_ne_zero hfuel.ne'
          rw [List.flatten_cons, List.take_append_of_le_length (le_of_lt hshort)] at hs
          unfold readFrames
          rcases hread : readFrame s with ⟨result, s'⟩
          by_cases hzero : cut = 0
          · rw [hzero, List.take_zero] at hs
            have hend := readFrame_nil hs
            rw [hread] at hend
            rw [show result = .ok none from hend, hzero]
            rfl
          · have hend := readFrame_cut hs hzero hshort hne hle
            rw [hread] at hend
            rw [show result = .error truncated from hend, List.take_zero, List.flatten_nil, List.length_nil,
              if_neg (Ne.symm hzero)]
      · obtain ⟨c, read, hc, hreturns, hrun⟩ := ih ms htail (fun x hx => hproper x (List.mem_cons_of_mem m hx))
          (cut - (frame b).length) (by omega)
        obtain ⟨m', hdecode, hm'⟩ := (codec_inverse.1 m b hencode).2 (hproper m List.mem_cons_self)
        refine ⟨c + 1, m' :: read, ⟨?_, ?_, fun d hd hle => ?_⟩, ?_, fun s fuel hs hfuel => ?_⟩
        · rw [List.length_cons]
          exact Nat.succ_le_succ hc.known
        · have hwhole := hc.whole
          rw [List.take_succ_cons, List.flatten_cons, List.length_append]
          omega
        · obtain ⟨d, rfl⟩ := Nat.exists_eq_succ_of_ne_zero (Nat.ne_of_gt (Nat.zero_lt_of_lt hd))
          have hlast := hc.last d (by omega) (by rw [List.length_cons] at hle; omega)
          rw [List.take_succ_cons, List.flatten_cons, List.length_append]
          omega
        · rw [List.take_succ_cons]
          exact List.Forall₂.cons hm' hreturns
        · obtain ⟨fuel, rfl⟩ := Nat.exists_eq_succ_of_ne_zero (Nat.ne_of_gt (Nat.zero_lt_of_lt hfuel))
          have hbytes : s.bytes = frame b ++ frames.flatten.take (cut - (frame b).length) := by
            rw [hs, List.flatten_cons, List.take_append, List.take_of_length_le hlong]
          obtain ⟨hfirst, hrest⟩ := readFrame_frame hbytes hne hle
          rw [hdecode] at hfirst
          unfold readFrames
          rcases hread : readFrame s with ⟨result, s'⟩
          rw [hread] at hfirst hrest
          rw [show result = .ok (some m') from hfirst]
          dsimp only
          rw [hrun s' fuel hrest (by omega), List.take_succ_cons, List.flatten_cons, List.length_append]
          have hsame : (frames.take c).flatten.length = cut - (frame b).length ↔
              (frame b).length + (frames.take c).flatten.length = cut := by omega
          simp only [hsame]

/-- Framing keeps messages apart: from a stream of written frames that ends anywhere and comes in any pieces, the
messages of the whole frames are read in order, and a clean end is told from a cut.  No length makes a reader accept
or allocate a body over the limit. -/
theorem framing :
    (∀ (ms : List Message) (frames : List Str) (plan : List Delivery) (cut : ℕ), ms.mapM writeFrame = .ok frames →
      (∀ m ∈ ms, Proper m) → cut ≤ frames.flatten.length → ∃ c read, Cut frames cut c ∧
        List.Forall₂ Returns (ms.take c) read ∧ ∀ fuel > c, readFrames fuel ⟨frames.flatten.take cut, plan, []⟩ =
          (read, some (if (frames.take c).flatten.length = cut then .ok () else .error truncated))) ∧
    (∀ s : Stream, (∀ n ∈ (readFrame s).2.allocated, n ∈ s.allocated ∨ n ≤ MAX_FRAME) ∧
      ∀ m, (readFrame s).1 = .ok (some m) → ∃ body : Str, body.length ≤ MAX_FRAME ∧ decode body = .ok m ∧
        s.bytes = frame body ++ (readFrame s).2.bytes) := by
  refine ⟨fun ms frames plan cut hms hproper hcut => ?_, readFrame_bounded⟩
  obtain ⟨c, read, hc, hreturns, hrun⟩ := readFrames_cut frames ms hms hproper cut hcut
  exact ⟨c, read, hc, hreturns, fun fuel hfuel => hrun _ fuel rfl hfuel⟩

/-- A version range in its frame. -/
theorem writeFrame_hello (min max : UInt16) :
    writeFrame (.hello min max) = .ok (frame (body (.hello min max))) := by
  have hencode : encode (.hello min max) = .ok (body (.hello min max)) :=
    encode_eq_ok.mpr ⟨trivial, (show 9 ≤ MAX_FRAME by decide), rfl⟩
  unfold writeFrame
  rw [hencode]
  rfl

/-- A cut inside the second of two frames, of a stream that comes in pieces. -/
theorem framing_hello : readFrames 5 ⟨(frame (body (.hello 1 2)) ++ frame (body (.hello 3 3))).take 15,
    [.bytes 0, .interrupted, .bytes 0], []⟩ = ([.hello 1 2], some (.error truncated)) := by
  have hframes : [Message.hello 1 2, .hello 3 3].mapM writeFrame =
      .ok [frame (body (.hello 1 2)), frame (body (.hello 3 3))] := by
    rw [List.mapM_cons, writeFrame_hello, List.mapM_cons, writeFrame_hello]
    rfl
  obtain ⟨c, read, hc, hreturns, hrun⟩ := framing.1 _ _ [.bytes 0, .interrupted, .bytes 0] 15 hframes
    (by
      intro m hm
      rw [List.mem_cons, List.mem_singleton] at hm
      rcases hm with rfl | rfl
      · exact (by decide : (1 : UInt16) ≤ 2)
      · exact (by decide : (3 : UInt16) ≤ 3))
    (by decide)
  have hone : c = 1 := by
    have hknown : c ≤ 2 := hc.known
    have hpos : c ≠ 0 := by
      rintro rfl
      exact absurd (hc.last 1 (by decide) (by decide)) (by decide)
    have htwo : c ≠ 2 := by
      rintro rfl
      exact absurd hc.whole (by decide)
    omega
  subst hone
  obtain ⟨m, rest, hm, hrest, rfl⟩ := List.forall₂_cons_left_iff.mp hreturns
  cases hrest
  cases hm
  have hrun5 := hrun 5 (by decide)
  rw [if_neg (by decide), List.flatten_cons, List.flatten_cons, List.flatten_nil, List.append_nil] at hrun5
  exact hrun5

/-- A detail of so many letters. -/
def detailOf (n : ℕ) : String := String.ofList (List.replicate n 'a')

theorem length_detailOf (n : ℕ) : (text (detailOf n)).length = n := by
  induction n with
  | zero => rfl
  | succ n ih =>
      have hcons : detailOf (n + 1) = String.singleton 'a' ++ detailOf n := String.ofList_cons
      rw [hcons, text_append, List.length_append, ih]
      exact Nat.add_comm 1 n

/-- What is written does not always come back: an error's detail is cut to the limit, and an empty version range is
refused. -/
theorem frames_refused :
    (∃ bytes m, writeFrame (.error "" (detailOf 1025)) = .ok bytes ∧ (readFrame ⟨bytes, [], []⟩).1 = .ok (some m) ∧
      m ≠ .error "" (detailOf 1025)) ∧
    (∃ bytes, writeFrame (.hello 2 1) = .ok bytes ∧
      (readFrame ⟨bytes, [], []⟩).1 = .error (malformed "empty version range")) := by
  constructor
  · have hencode : encode (.error "" (detailOf 1025)) = .ok (body (.error "" (detailOf 1025))) :=
      encode_eq_ok.mpr ⟨Nat.zero_le _, (by decide), rfl⟩
    have hwrite : writeFrame (.error "" (detailOf 1025)) = .ok (frame (body (.error "" (detailOf 1025)))) := by
      unfold writeFrame
      rw [hencode]
      rfl
    obtain ⟨b, hencode', hframe, hne, hle⟩ := writeFrame_eq_ok hwrite
    obtain ⟨m, hdecode, cut, rfl, hcut⟩ := (codec_inverse.1 _ _ hencode').2 trivial
    refine ⟨_, .error "" cut, hwrite, ?_, fun heq => ?_⟩
    · rw [(readFrame_frame (by rw [hframe, List.append_nil]) hne hle).1, hdecode]
      rfl
    · injection heq with _ hdetail
      have hwithin := hcut.within
      rw [hdetail, length_detailOf] at hwithin
      exact absurd hwithin (by decide)
  · refine ⟨_, writeFrame_hello 2 1, ?_⟩
    rw [(readFrame_frame (List.append_nil _).symm (body_ne_nil _) (by decide)).1]
    rfl

end Javelin.Wire
