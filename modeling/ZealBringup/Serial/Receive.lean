import ZealBringup.Serial.Lines
import ZealBringup.Store.Refine

/-!
# The upload end to end

* `zrecvLoop_outcome` — on any device and for any arrivals the loop writes behind the log only,
  or appends the bytes of the lines it received.
* `zrecvLoop_sent` — the lines of the sender are all acknowledged and stored.
* `serial_upload` — the main result.
-/

set_option maxRecDepth 10000

namespace ZealBringup.Serial

open Store CrashDisk LastWrite

/-! ## Any arrivals -/

/-- The chunks were received, in order, from the front of the arrivals. -/
def Received (serial : Arrivals) (chunks : List (List UInt8)) : Prop :=
  ∃ lines rest, List.Forall₂ LineOf chunks lines ∧ serial = lines.flatten.map some ++ rest

theorem Received.nil (serial : Arrivals) : Received serial [] := ⟨[], serial, .nil, rfl⟩

theorem Received.cons {serial rest : Arrivals} {chunk line : List UInt8}
    {chunks : List (List UInt8)} (hline : LineOf chunk line)
    (hserial : serial = line.map some ++ rest) (h : Received rest chunks) :
    Received serial (chunk :: chunks) := by
  obtain ⟨lines, rest', hall, hrest⟩ := h
  refine ⟨line :: lines, rest', .cons hline hall, ?_⟩
  rw [hserial, hrest, List.flatten_cons, List.map_append, List.append_assoc]

/-- **What the loop may do to the store.** -/
theorem zrecvLoop_outcome {m₀ m : Machine} {tail length expectedCrc n : ℕ} {name acc : List UInt8}
    {stream : ZssStream} {serial : Arrivals}
    (h : StreamInv m₀ m tail length expectedCrc name acc stream) (hacc : acc.length ≤ length)
    (hname : zssNameOk name = some n) (hlen : 0 < length) (hmax : length ≤ zssMaxFile)
    (hfit : tail + 1 + (length + 511) / 512 ≤ m₀.zssSectors) (hsec : m₀.zssSectors < 2 ^ 32) :
    (∃ evs, Ran m₀ (zrecvLoop stream serial m).2 evs ∧
        ∀ e ∈ evs, e.Within (beyond m₀.zssBase m₀.zssSectors tail)) ∨
      ∃ chunks code, Received serial chunks ∧ (acc ++ chunks.flatten).length = length ∧
        Appends m₀ (zrecvLoop stream serial m).2 tail code
          (uploadRecord tail length expectedCrc name)
          (fileLookup length expectedCrc (acc ++ chunks.flatten)) := by
  fun_induction zrecvLoop stream serial m generalizing acc with
  | case1 stream serial m hlt read hread => exact .inl h.ran
  | case2 stream serial m hlt bytes rest hread code stream' m' hwrite hcode =>
    obtain ⟨line, -, hbytes, -⟩ := line_of_zrecvChunk hread
    rw [h.length_eq, h.written_eq] at hbytes
    rcases zssStreamWrite_inv h (show bytes.length ≤ length - acc.length by omega) with
      ⟨-, hran⟩ | ⟨h0, -⟩
    · rw [hwrite] at hran
      exact .inl hran
    · rw [hwrite] at h0
      exact absurd h0 hcode
  | case3 stream serial m hlt bytes rest hread code stream' m' hwrite hcode ih =>
    obtain ⟨line, hline, hbytes, hserial⟩ := line_of_zrecvChunk hread
    rw [h.length_eq, h.written_eq] at hbytes
    rcases zssStreamWrite_inv h (show bytes.length ≤ length - acc.length by omega) with
      ⟨h0, -⟩ | ⟨-, hinv⟩
    · rw [hwrite] at h0
      exact absurd (not_not.1 hcode) h0
    · rw [hwrite] at hinv
      have hacc' : (acc ++ bytes).length ≤ length := by
        rw [List.length_append]
        omega
      rcases ih hinv hacc' with hran | ⟨chunks, code', hreceived, htotal, happ⟩
      · exact .inl hran
      · rw [List.append_assoc, ← List.flatten_cons] at htotal happ
        exact .inr ⟨bytes :: chunks, code', hreceived.cons hline hserial, htotal, happ⟩
  | case4 stream serial m hge m' hfinish =>
    have happ := zssStreamFinish_appends h hname hlen hmax hfit hsec
    rw [hfinish] at happ
    rw [h.length_eq, h.written_eq] at hge
    exact .inr ⟨[], _, .nil _, by rw [List.flatten_nil, List.append_nil]; omega,
      by rwa [List.flatten_nil, List.append_nil]⟩
  | case5 stream serial m hge m' hfinish hcode =>
    have happ := zssStreamFinish_appends h hname hlen hmax hfit hsec
    rw [hfinish] at happ
    rw [h.length_eq, h.written_eq] at hge
    exact .inr ⟨[], _, .nil _, by rw [List.flatten_nil, List.append_nil]; omega,
      by rwa [List.flatten_nil, List.append_nil]⟩
  | case6 stream serial m hge status m' hfinish hcode hcode' =>
    have happ := zssStreamFinish_appends h hname hlen hmax hfit hsec
    rw [hfinish] at happ
    rw [h.length_eq, h.written_eq] at hge
    exact .inr ⟨[], _, .nil _, by rw [List.flatten_nil, List.append_nil]; omega,
      by rwa [List.flatten_nil, List.append_nil]⟩

/-! ## The store behind a command -/

/-- Whether an append was published or not, every other name reads as before, and its name reads
as before or as the append left it. -/
theorem Appends.outcome {m m' : Machine} {b : Bank} {rs : List LogRecord} {tail : ℕ} {code : ℤ}
    {r : LogRecord} {post : Lookup} (h : Holds m b rs tail)
    (happ : Appends (m.select b) m' tail code r post) :
    (∀ n, zssLookup m' n = zssLookup m n) ∨
      (zssLookup m' r.name = post ∧ post.readCode = 0 ∧
        ∀ n, n ≠ r.name → zssLookup m' n = zssLookup m n) := by
  cases happ with
  | failed evs ran within hcode =>
    refine .inl (h.beyond_tail ran.vb fun a ha => ?_).2
    rw [ran.disk]
    exact replay_off within _ ha
  | published body header flushed ran within room decodes ended view _ _ _ verified =>
    have hdisk : m'.disk = Function.update (replay body m.disk) (b.base + tail) header := by
      rw [ran.disk, replay_publication]
      rfl
    obtain ⟨-, hother, htarget⟩ := h.published ran.vb room (fun a ha => replay_off within _ ha)
      hdisk decodes ended view
    exact .inr ⟨htarget, verified, hother⟩

/-- Looking for the log selects a bank, and that is all. -/
theorem zssLookup_zssFind (m : Machine) (n : List UInt8) :
    zssLookup (zssFind m none).2 n = zssLookup m n := by
  rw [zssFind, if_neg (by simp)]
  rcases havail : zssAvailable m with ⟨_ | _, m'⟩
  · rw [zssAvailable_false havail]
  · obtain ⟨b, hb, rfl⟩ := exists_selects havail
    have hb' : Selects (m.select b) b := hb.congr rfl rfl rfl
    show zssLookup (m.select b) n = zssLookup m n
    rw [zssLookup, zssLookup, zssFind, zssFind]
    split_ifs
    · rfl
    · rw [show zssAvailable (m.select b) = _ from hb', show zssAvailable m = _ from hb]
      rfl

/-- A session that does not begin leaves every name as it is. -/
theorem zssStreamBegin_none {m m' : Machine} {name : List UInt8} {length expectedCrc : ℕ} {code : ℤ}
    (h : zssStreamBegin m name length expectedCrc = (code, none, m')) (n : List UInt8) :
    zssLookup m' n = zssLookup m n := by
  rw [zssStreamBegin] at h
  split_ifs at h
  · cases h
    rfl
  · have hlook := zssLookup_zssFind m n
    rcases hfind : zssFind m none with ⟨scan, m₁⟩
    rw [hfind] at h hlook
    dsimp only at h
    split_ifs at h
    · cases h
      exact hlook
    · cases h
      exact hlook
    · cases h

/-- **Any command and any arrivals.** -/
theorem zrecvSerial_outcome (uart : Bool) (args : List UInt8) (serial : Arrivals) (m : Machine) :
    (∀ n, zssLookup (zrecvSerial uart args serial m).2 n = zssLookup m n) ∨
      ∃ name length checksum chunks, zrecvArgs args = some (name, length, checksum) ∧
        Received serial chunks ∧ chunks.flatten.length = length ∧
        (zssCrc chunks.flatten).toNat = checksum ∧
        zssLookup (zrecvSerial uart args serial m).2 name =
          fileLookup length checksum chunks.flatten ∧
        ∀ n, n ≠ name → zssLookup (zrecvSerial uart args serial m).2 n = zssLookup m n := by
  rw [zrecvSerial]
  rcases hargs : zrecvArgs args with _ | ⟨name, length, checksum⟩
  · exact .inl fun _ => rfl
  · dsimp only
    split_ifs
    · exact .inl fun _ => rfl
    · rcases hbegin : zssStreamBegin m name length checksum with ⟨code, _ | s, m₁⟩
      · exact .inl fun n => zssStreamBegin_none hbegin n
      · obtain ⟨hlen, hmax, hname, b, rs, tail, hlog, rfl, hroom, -, hinv⟩ :=
          zssStreamBegin_some hbegin
        obtain ⟨k, hk⟩ := Option.isSome_iff_exists.1 hname
        have hsec : b.sectors = 65536 := hlog.selects.bank.2.1
        dsimp only
        rcases @zrecvLoop_outcome _ _ _ _ _ _ _ _ _ serial hinv (Nat.zero_le _) hk hlen hmax
          (show _ ≤ b.sectors from hroom) (show b.sectors < _ by omega) with
          ⟨evs, hran, hin⟩ | ⟨chunks, code', hreceived, htotal, happ⟩
        · refine .inl (hlog.beyond_tail hran.vb fun a ha => ?_).2
          rw [hran.disk]
          exact replay_off hin _ ha
        · rw [List.nil_append] at htotal happ
          rcases Appends.outcome hlog happ with hsame | ⟨htarget, hread, hother⟩
          · exact .inl hsame
          · refine .inr ⟨name, length, checksum, chunks, rfl, hreceived, htotal, ?_, htarget, hother⟩
            by_contra hne
            rw [fileLookup] at hread
            dsimp only at hread
            rw [if_neg hne] at hread
            exact absurd hread (by norm_num)

/-! ## The lines of the sender -/

/-- The chunks are the ones the loop asks for when `left` bytes are to come. -/
def Cut : ℕ → List (List UInt8) → Prop
  | left, [] => left = 0
  | left, c :: cs => 0 < left ∧ c.length = min left zrecvChunkSize ∧ Cut (left - c.length) cs

/-- The acknowledgements of the chunks when `written` bytes are there. -/
def acks : ℕ → List (List UInt8) → List Message
  | _, [] => []
  | written, c :: cs => .ack (written + c.length) :: acks (written + c.length) cs

theorem zrecvChunk_sent {left : ℕ} {c line : List UInt8} {lines : List (List UInt8)}
    {serial rest : Arrivals} (hleft : 0 < left) (hlen : c.length = min left zrecvChunkSize)
    (hline : LineOf c line) (hserial : serial = (line :: lines).flatten.map some ++ rest) :
    zrecvChunk (min left zrecvChunkSize) serial = .ok (c, lines.flatten.map some ++ rest) := by
  have hne : c ≠ [] := by
    rintro rfl
    rw [List.length_nil, zrecvChunkSize] at hlen
    omega
  rw [hserial, List.flatten_cons, List.map_append, List.append_assoc, ← hlen]
  exact zrecvChunk_of_line hline hne _

/-- A successful write moves the stream. -/
theorem zssStreamWrite_length {s s' : ZssStream} {src : List UInt8} {m m' : Machine}
    (h : zssStreamWrite s src m = (0, s', m')) :
    s'.length = s.length ∧ s'.written = s.written + src.length ∧ s'.name = s.name := by
  rw [zssStreamWrite] at h
  split_ifs at h
  · cases h
  · rcases hbytes : zssStreamBytes src s m with ⟨_ | _, s₁, m₁⟩
    · rw [hbytes] at h
      cases h
    · rw [hbytes] at h
      cases h
      exact zssStreamBytes_length hbytes

/-- **Lines of the right chunks are all acknowledged**, and the machine is that of the upload of
the chunks. -/
theorem zrecvLoop_sent {stream : ZssStream} {serial : Arrivals} {m : Machine}
    {chunks lines : List (List UInt8)} {rest : Arrivals}
    (hcut : Cut (stream.length - stream.written) chunks) (hle : stream.written ≤ stream.length)
    (hlines : List.Forall₂ LineOf chunks lines)
    (hserial : serial = lines.flatten.map some ++ rest)
    (hok : (uploadChunks chunks stream m).1 = 0) :
    zrecvLoop stream serial m =
      (acks stream.written chunks ++ [.saved stream.name stream.length],
        (uploadChunks chunks stream m).2) := by
  fun_induction zrecvLoop stream serial m generalizing chunks lines with
  | case1 stream serial m hlt read hread =>
    cases hlines with
    | nil => exact absurd hcut (show ¬(_ = 0) by omega)
    | cons hline _ =>
      rw [zrecvChunk_sent hcut.1 hcut.2.1 hline hserial] at hread
      cases hread
  | case2 stream serial m hlt bytes rest' hread code stream' m' hwrite hcode =>
    cases hlines with
    | nil => exact absurd hcut (show ¬(_ = 0) by omega)
    | @cons c line cs lines hline hlines =>
      have hlen := hcut.2.1
      rw [zrecvChunk_sent hcut.1 hlen hline hserial] at hread
      cases hread
      rw [uploadChunks, hwrite] at hok
      dsimp only at hok
      rw [if_pos ⟨hcode, by omega⟩] at hok
      exact absurd hok hcode
  | case3 stream serial m hlt bytes rest' hread code stream' m' hwrite hcode ih =>
    obtain rfl := not_not.1 hcode
    cases hlines with
    | nil => exact absurd hcut (show ¬(_ = 0) by omega)
    | @cons c line cs lines hline hlines =>
      obtain ⟨hleft, hlen, hcut⟩ := hcut
      rw [zrecvChunk_sent hleft hlen hline hserial] at hread
      cases hread
      obtain ⟨hlength, hwritten, hname⟩ := zssStreamWrite_length hwrite
      have hstep : uploadChunks (bytes :: cs) stream m = uploadChunks cs stream' m' := by
        rw [uploadChunks, hwrite]
        dsimp only
        rw [if_neg fun hh => hh.1 rfl]
      rw [hstep] at hok ⊢
      have hrest := ih (by rw [hlength, hwritten, ← Nat.sub_sub]; exact hcut) (by omega) hlines rfl hok
      rw [hrest, acks, hwritten, hlength, hname]
      rfl
  | case4 stream serial m hge m' hfinish =>
    cases hlines with
    | cons _ _ => exact absurd hcut.1 (by omega)
    | nil =>
      rw [uploadChunks, hfinish]
      rfl
  | case5 stream serial m hge m' hfinish hcode =>
    cases hlines with
    | cons _ _ => exact absurd hcut.1 (by omega)
    | nil =>
      rw [uploadChunks, hfinish] at hok
      exact absurd hok (by norm_num)
  | case6 stream serial m hge status m' hfinish hcode hcode' =>
    cases hlines with
    | cons _ _ => exact absurd hcut.1 (by omega)
    | nil =>
      rw [uploadChunks, hfinish] at hok
      exact absurd hok hcode

/-- The sender cuts the data as the loop asks for it. -/
theorem sent_cut (data : List UInt8) {i n : ℕ} (hi : i ≤ data.length)
    (hn : n = (data.length - i + 127) / 128) :
    Cut (data.length - i) ((List.range' i n 128).map fun i => (data.drop i).take 128) ∧
      ((List.range' i n 128).map fun i => (data.drop i).take 128).flatten = data.drop i ∧
      acks i ((List.range' i n 128).map fun i => (data.drop i).take 128) =
        (List.range' i n 128).map fun i => .ack (min (i + 128) data.length) := by
  induction n generalizing i with
  | zero =>
    have hlen : i = data.length := by omega
    refine ⟨show data.length - i = 0 by omega, ?_, rfl⟩
    rw [hlen, List.drop_length]
    rfl
  | succ n ih =>
    have hchunk : ((data.drop i).take 128).length = min (data.length - i) 128 := by
      rw [List.length_take, List.length_drop, Nat.min_comm]
    rw [List.range'_succ, List.map_cons, List.map_cons, List.flatten_cons, Cut, acks, hchunk]
    by_cases hlast : data.length ≤ i + 128
    · have hzero : n = 0 := by omega
      subst hzero
      rw [show min (data.length - i) 128 = data.length - i by omega,
        show min (i + 128) data.length = data.length by omega,
        show i + (data.length - i) = data.length by omega]
      refine ⟨⟨by omega, show _ = min _ 128 by omega, show _ - _ = 0 by omega⟩, ?_, rfl⟩
      rw [List.take_of_length_le (by rw [List.length_drop]; omega)]
      exact List.append_nil _
    · obtain ⟨hcut, hflat, hacks⟩ := @ih (i + 128) (by omega) (by omega)
      rw [show min (data.length - i) 128 = 128 by omega,
        show min (i + 128) data.length = i + 128 by omega, hflat, hacks]
      refine ⟨⟨by omega, show _ = min _ 128 by omega, ?_⟩, ?_, rfl⟩
      · rw [Nat.sub_sub]
        exact hcut
      · rw [← List.drop_drop, List.take_append_drop]

/-! ## The main result -/

/-- A line of the sender as it goes over the wire: any line ends before it and one behind it. -/
def SentLine (digits line : List UInt8) : Prop :=
  ∃ front e, line = front ++ digits ++ [e] ∧ (∀ c ∈ front, isNewline c = true) ∧
    isNewline e = true

theorem lineOf_of_sentLine {chunk line : List UInt8} (h : SentLine (hex chunk) line) :
    LineOf chunk line := by
  obtain ⟨front, e, hline, hfront, he⟩ := h
  exact ⟨front, hex chunk, e, hline, hfront, he, hexOf_hex chunk⟩

/-- The names of the sender are names of the store. -/
theorem zssNameOk_of_validName {name : PyStr} {raw : List UInt8} (h : validName name = some raw) :
    (zssNameOk raw).isSome := by
  have hstore : Store.validName name = .ok raw := by
    rw [validName] at h
    rw [Store.validName]
    cases hraw : encodeAscii name with
    | none =>
      rw [hraw] at h
      cases h
    | some encoded =>
      rw [hraw] at h
      dsimp only at h ⊢
      split_ifs at h with hbad
      cases h
      exact if_neg hbad
  exact (validName_ok hstore).2

/-- **The serial upload.**  The command and the lines of the sender, with any line ends, make the
file exactly the data and are all acknowledged, on a store with room.  Any other command and any
arrivals leave every name as it is, or make the named file bytes of the announced length and
checksum that were received in lines. -/
theorem serial_upload :
    (∀ (name : PyStr) (data command : List UInt8) (emitted : List (ℕ × List UInt8)),
      sendMain name data = some (command, emitted) →
      ∀ (m : Machine) (b : Bank) (rs : List LogRecord) (tail : ℕ), Holds m b rs tail → m.Healthy →
      tail + 1 + (data.length + 511) / 512 ≤ b.sectors →
      ∀ (lines : List (List UInt8)) (rest : Arrivals),
      List.Forall₂ SentLine (emitted.map Prod.snd) lines →
      ∃ raw, validName name = some raw ∧
        (zrecvSerial true (command.drop 6) (lines.flatten.map some ++ rest) m).1 =
          .ready data.length :: (emitted.map fun l => .ack l.1) ++ [.saved raw data.length] ∧
        zssLookup (zrecvSerial true (command.drop 6) (lines.flatten.map some ++ rest) m).2 raw =
          fileLookup data.length (zssCrc data).toNat data ∧
        ∀ n, n ≠ raw →
          zssLookup (zrecvSerial true (command.drop 6) (lines.flatten.map some ++ rest) m).2 n =
            zssLookup m n) ∧
    ∀ (uart : Bool) (args : List UInt8) (serial : Arrivals) (m : Machine),
      (∀ n, zssLookup (zrecvSerial uart args serial m).2 n = zssLookup m n) ∨
      ∃ name length checksum chunks, zrecvArgs args = some (name, length, checksum) ∧
        Received serial chunks ∧ chunks.flatten.length = length ∧
        (zssCrc chunks.flatten).toNat = checksum ∧
        zssLookup (zrecvSerial uart args serial m).2 name =
          fileLookup length checksum chunks.flatten ∧
        ∀ n, n ≠ name → zssLookup (zrecvSerial uart args serial m).2 n = zssLookup m n := by
  refine ⟨?_, zrecvSerial_outcome⟩
  intro name data command emitted hsend m b rs tail hlog hhealthy hroom lines rest hlines
  rw [sendMain] at hsend
  cases hraw : validName name with
  | none =>
    rw [hraw] at hsend
    cases hsend
  | some raw =>
    rw [hraw] at hsend
    dsimp only at hsend
    split_ifs at hsend with hdata
    cases hsend
    simp only [not_or, not_lt, gt_iff_lt] at hdata
    obtain ⟨hne, hmax, -⟩ := hdata
    have hlen : 0 < data.length := List.length_pos_iff.2 hne
    have hname := zssNameOk_of_validName hraw
    obtain ⟨hcut, hflat, hacks⟩ := sent_cut data (Nat.zero_le _) rfl
    generalize hchunks : ((List.range' 0 ((data.length - 0 + 127) / 128) 128).map fun i =>
      (data.drop i).take 128) = chunks at hcut hflat hacks
    rw [List.drop_zero] at hflat
    rw [Nat.sub_zero] at hcut hacks hchunks
    have hargs : zrecvArgs ((zrecvWord ++ raw ++ [32] ++ decimal data.length ++ [32] ++
        hex08 (zlibCrc32 data).toNat).drop 6) = some (raw, data.length, (zssCrc data).toNat) := by
      rw [zlibCrc32_eq]
      exact zrecvArgs_command hname hlen hmax (zssCrc data).toNat_lt
    have hlineOf : List.Forall₂ LineOf chunks lines := by
      rw [← hchunks, List.forall₂_map_left_iff]
      rw [List.map_map, List.forall₂_map_left_iff] at hlines
      exact hlines.imp fun i line h => lineOf_of_sentLine h
    have hbegin := @zssStreamBegin_eq _ _ _ _ hlog raw data.length (zssCrc data).toNat hname hlen
      hmax hroom
    have hput := @zssPut_healthy _ _ _ _ hlog hhealthy raw data hname hlen hmax hroom
    have hupload := zssUpload_eq_zssPut m raw chunks
    rw [hflat] at hupload
    have hrun : zssUpload m raw data.length (zssCrc data).toNat chunks = uploadChunks chunks
        ⟨tail, data.length, 0, (zssCrc data).toNat, 0xffffffff, raw, zeroSector⟩ (m.select b) := by
      rw [zssUpload, hbegin]
    rw [hrun] at hupload
    have hloop := @zrecvLoop_sent
      ⟨tail, data.length, 0, (zssCrc data).toNat, 0xffffffff, raw, zeroSector⟩ _ (m.select b)
      chunks lines rest hcut (Nat.zero_le _) hlineOf rfl (by rw [hupload]; exact hput)
    rw [hupload] at hloop
    have hserial : zrecvSerial true ((zrecvWord ++ raw ++ [32] ++ decimal data.length ++ [32] ++
        hex08 (zlibCrc32 data).toNat).drop 6) (lines.flatten.map some ++ rest) m =
        (.ready data.length :: (acks 0 chunks ++ [.saved raw data.length]),
          (zssPut m raw data).2) := by
      rw [zrecvSerial, hargs]
      dsimp only
      rw [if_neg (by simp), hbegin]
      dsimp only
      rw [hloop]
    have happ : Appends (m.select b) (zssPut m raw data).2 tail 0 (putRecord tail raw data)
        (fileLookup data.length (zssCrc data).toNat data) := by
      rcases zssPut_appends hlog raw data with ⟨-, hne⟩ | happ
      · exact absurd hput hne
      · rwa [hput] at happ
    obtain ⟨-, hother, htarget⟩ := happ.done hlog
    refine ⟨raw, rfl, ?_, ?_, fun n hn => ?_⟩
    · rw [hserial, hacks, List.map_map]
      rfl
    · rw [hserial]
      exact htarget
    · rw [hserial]
      exact hother n hn

/-- One byte sent to a fresh image. -/
theorem serial_upload_oneByte :
    ∃ command emitted, sendMain [65] [7] = some (command, emitted) ∧
      (zrecvSerial true (command.drop 6) ([[10, 48, 55, 13]].flatten.map some)
          (boot fullDevice (fun _ => .done) freshDisk)).1 =
        [.ready 1, .ack 1, .saved [65] 1] := by
  have hname : validName [65] = some [65] := by decide
  have hsend : sendMain [65] [7] = some (zrecvWord ++ [65] ++ [32] ++ decimal 1 ++ [32] ++
      hex08 (zlibCrc32 [7]).toNat, [(1, [48, 55])]) := by
    rw [sendMain, hname]
    rfl
  have hline : SentLine [48, 55] [10, 48, 55, 13] := ⟨[10], 13, rfl, by decide, rfl⟩
  obtain ⟨raw, hraw, hout, -, -⟩ := serial_upload.1 [65] [7] _ _ hsend
    (boot fullDevice (fun _ => .done) freshDisk) (bankA 0) [] 1 (holds_freshDisk _ rfl (le_refl _))
    (fun _ => rfl) (by decide) [[10, 48, 55, 13]] [] (.cons hline .nil)
  rw [hname, Option.some.injEq] at hraw
  subst hraw
  rw [List.append_nil] at hout
  exact ⟨_, _, hsend, hout⟩

end ZealBringup.Serial
