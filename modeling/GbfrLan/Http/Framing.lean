import GbfrLan.Http.Half

/-!
# A request as it is written and as it is read

The head of a request is a list of lines, none of them empty and none with a line break in it, so
the first empty line is the end of the head. The broker finds it in the growing buffer as soon as
it is complete, however the bytes are split into reads, and takes the lines apart again.
-/
namespace GbfrLan.Http
open Lib Json
open Broker (isSpace)

/-- A text without a line break. -/
def OneLine (cs : List Char) : Prop := '\r' ∉ cs ∧ '\n' ∉ cs

theorem OneLine.append {cs cs' : List Char} (h : OneLine cs) (h' : OneLine cs') :
    OneLine (cs ++ cs') := by
  refine ⟨fun hmem => ?_, fun hmem => ?_⟩
  · rcases List.mem_append.mp hmem with hmem | hmem
    · exact h.1 hmem
    · exact h'.1 hmem
  · rcases List.mem_append.mp hmem with hmem | hmem
    · exact h.2 hmem
    · exact h'.2 hmem

/-- A text without white space has no line break either. -/
theorem OneLine.of_forall_not_space {cs : List Char} (h : ∀ c ∈ cs, isSpace c = false) :
    OneLine cs := by
  refine ⟨fun hmem => ?_, fun hmem => ?_⟩
  · exact absurd (h _ hmem) (by decide)
  · exact absurd (h _ hmem) (by decide)

/-! ### The head as lines -/

/-- The lines of a head as they stand on the wire, up to the empty line. -/
def headText : List String → List UInt8
  | [] => []
  | [line] => Utf8.bytes line
  | line :: line' :: lines => Utf8.bytes line ++ cr :: lf :: headText (line' :: lines)

theorem headText_cons_cons (line line' : String) (lines : List String) :
    headText (line :: line' :: lines) = Utf8.bytes line ++ cr :: lf :: headText (line' :: lines) :=
  rfl

theorem headText_append_headEnd {lines : List String} (h : lines ≠ []) :
    lines.flatMap (fun line => Utf8.bytes line ++ [cr, lf]) ++ [cr, lf] =
      headText lines ++ headEnd := by
  induction lines with
  | nil => exact absurd rfl h
  | cons line lines ih =>
    cases lines with
    | nil => simp [headText, headEnd]
    | cons line' lines =>
      rw [List.flatMap_cons, List.append_assoc, ih (List.cons_ne_nil _ _), headText_cons_cons]
      simp

/-- A line of a head. -/
structure IsLine (line : String) : Prop where
  ne : line.toList ≠ []
  one : OneLine line.toList

section Lines

variable {line : String}

theorem IsLine.cr_not_mem (h : IsLine line) : cr ∉ Utf8.bytes line :=
  @Utf8.not_mem_encode '\r' _ (by decide) h.one.1

theorem IsLine.lf_not_mem (h : IsLine line) : lf ∉ Utf8.bytes line :=
  @Utf8.not_mem_encode '\n' _ (by decide) h.one.2

theorem IsLine.bytes_ne (h : IsLine line) : Utf8.bytes line ≠ [] := by
  intro hnil
  have hread := Utf8.decodeLossy_bytes line
  rw [hnil] at hread
  exact h.ne (by rw [← hread]; rfl)

/-- A head does not start with a carriage return. -/
theorem IsLine.headText_head (h : IsLine line) (lines : List String) :
    ∃ b bs, headText (line :: lines) = b :: bs ∧ b ≠ cr := by
  obtain ⟨b, bs, hbytes⟩ := List.exists_cons_of_ne_nil h.bytes_ne
  have hb : b ≠ cr := by
    rintro rfl
    exact h.cr_not_mem (by rw [hbytes]; exact List.mem_cons_self)
  cases lines with
  | nil => exact ⟨b, bs, hbytes, hb⟩
  | cons line' lines =>
    refine ⟨b, bs ++ cr :: lf :: headText (line' :: lines), ?_, hb⟩
    rw [headText_cons_cons, hbytes, List.cons_append]

/-- The end of a head is its first empty line. -/
theorem position_headText {lines : List String} (hne : lines ≠ []) (h : ∀ l ∈ lines, IsLine l)
    (rest : List UInt8) :
    position headEnd (headText lines ++ headEnd ++ rest) = some (headText lines).length := by
  induction lines with
  | nil => exact absurd rfl hne
  | cons line lines ih =>
    have hline := h line List.mem_cons_self
    cases lines with
    | nil =>
      rw [headText, List.append_assoc]
      have hat : position headEnd (headEnd ++ rest) = some 0 := by
        rw [position_eq_some_iff]
        exact ⟨Nat.zero_le _, List.prefix_append _ _, fun j hj => absurd hj (Nat.not_lt_zero j)⟩
      have hpos : position headEnd (Utf8.bytes line ++ (headEnd ++ rest)) = _ :=
        position_append_of_not_mem hline.cr_not_mem _
      rw [hpos]
      exact congrArg (Option.map _) hat |>.trans (by simp)
    | cons line' lines =>
      have ih := ih (List.cons_ne_nil _ _) fun l hl => h l (List.mem_cons_of_mem _ hl)
      obtain ⟨b, bs, hhead, hb⟩ := (h line' (by simp)).headText_head lines
      have hcr : position headEnd (cr :: lf :: (headText (line' :: lines) ++ headEnd ++ rest)) =
          some ((headText (line' :: lines)).length + 2) := by
        have hfirst : ¬headEnd <+: cr :: lf :: (headText (line' :: lines) ++ headEnd ++ rest) := by
          rw [hhead]
          simp [headEnd, hb.symm]
        have hsecond : ¬headEnd <+: lf :: (headText (line' :: lines) ++ headEnd ++ rest) := by
          simp [headEnd, cr, lf]
        rw [position, if_neg hfirst, position, if_neg hsecond, ih]
        rfl
      have htext : headText (line :: line' :: lines) ++ headEnd ++ rest =
          Utf8.bytes line ++ cr :: lf :: (headText (line' :: lines) ++ headEnd ++ rest) := by
        rw [headText_cons_cons]
        simp
      have hpos : position headEnd (Utf8.bytes line ++ cr :: lf ::
          (headText (line' :: lines) ++ headEnd ++ rest)) = _ :=
        position_append_of_not_mem hline.cr_not_mem _
      rw [htext, hpos]
      refine (congrArg (Option.map _) hcr).trans ?_
      rw [headText_cons_cons, List.length_append]
      simp only [Option.map_some, List.length_cons]
      congr 1
      omega

end Lines

/-! ### The lines of a head read back -/

/-- What a head falls into at its line feeds: all lines but the last keep their carriage return. -/
def pieces : List String → List (List UInt8)
  | [] => []
  | [line] => [Utf8.bytes line]
  | line :: line' :: lines => (Utf8.bytes line ++ [cr]) :: pieces (line' :: lines)

theorem splitOn_headText {lines : List String} (hne : lines ≠ []) (h : ∀ l ∈ lines, IsLine l) :
    (headText lines).splitOn lf = pieces lines := by
  induction lines with
  | nil => exact absurd rfl hne
  | cons line lines ih =>
    have hline := h line List.mem_cons_self
    cases lines with
    | nil =>
      refine List.splitOnP_eq_singleton fun b hb => ?_
      exact beq_eq_false_iff_ne.mpr fun heq => hline.lf_not_mem (heq ▸ hb)
    | cons line' lines =>
      have ih := ih (List.cons_ne_nil _ _) fun l hl => h l (List.mem_cons_of_mem _ hl)
      have htext : headText (line :: line' :: lines) =
          (Utf8.bytes line ++ [cr]) ++ lf :: headText (line' :: lines) := by
        rw [headText_cons_cons, List.append_assoc]
        rfl
      have hfirst : ∀ b ∈ Utf8.bytes line ++ [cr], (b == lf) = false := by
        intro b hb
        refine beq_eq_false_iff_ne.mpr ?_
        rintro rfl
        rcases List.mem_append.mp hb with hb | hb
        · exact hline.lf_not_mem hb
        · exact absurd hb (by decide)
      rw [htext, List.splitOn,
        List.splitOnP_append_cons_of_forall_mem hfirst lf (beq_self_eq_true lf)]
      exact congrArg _ ih

theorem decodeLossy_line_cr (line : String) :
    (Utf8.decodeLossy (Utf8.bytes line ++ [cr])).toList = line.toList ++ ['\r'] := by
  have hbytes : Utf8.bytes line ++ [cr] = Utf8.bytes (String.ofList (line.toList ++ ['\r'])) := by
    rw [Utf8.bytes, Utf8.bytes, String.toList_ofList, List.flatMap_append]
    rfl
  rw [hbytes, Utf8.decodeLossy_bytes, String.toList_ofList]

theorem trimEndCr_of_not_mem {cs : List Char} (h : '\r' ∉ cs) : trimEndCr cs = cs := by
  unfold trimEndCr
  cases hrev : cs.reverse with
  | nil =>
    rw [List.reverse_eq_nil_iff.mp hrev]
    rfl
  | cons c rest =>
    have hc : c ≠ '\r' := by
      rintro rfl
      exact h (List.mem_reverse.mp (by rw [hrev]; exact List.mem_cons_self))
    rw [List.dropWhile_cons_of_neg (by simpa using hc), ← hrev, List.reverse_reverse]

theorem trimEndCr_append_cr {cs : List Char} (h : '\r' ∉ cs) : trimEndCr (cs ++ ['\r']) = cs := by
  have hdrop : trimEndCr (cs ++ ['\r']) = trimEndCr cs := by
    unfold trimEndCr
    rw [List.reverse_append]
    rfl
  rw [hdrop, trimEndCr_of_not_mem h]

/-- One line of the headers, as text. -/
def putLine (headers : Headers) (line : String) : Headers :=
  match Text.splitOnce ':' line.toList with
  | some (k, v) => headers.insert (String.ofList (Text.lower (trim k))) (String.ofList (trim v))
  | none => headers

theorem IsLine.putHeader {line : String} (h : IsLine line) (headers : Headers) :
    Http.putHeader headers (Utf8.bytes line) = putLine headers line := by
  unfold Http.putHeader
  rw [Utf8.decodeLossy_bytes, trimEndCr_of_not_mem h.one.1]
  rfl

theorem IsLine.putHeader_cr {line : String} (h : IsLine line) (headers : Headers) :
    Http.putHeader headers (Utf8.bytes line ++ [cr]) = putLine headers line := by
  unfold Http.putHeader
  rw [decodeLossy_line_cr, trimEndCr_append_cr h.one.1]
  rfl

theorem foldl_pieces {lines : List String} (h : ∀ l ∈ lines, IsLine l) (headers : Headers) :
    (pieces lines).foldl putHeader headers = lines.foldl putLine headers := by
  induction lines generalizing headers with
  | nil => rfl
  | cons line lines ih =>
    have hline := h line List.mem_cons_self
    cases lines with
    | nil =>
      rw [pieces, List.foldl_cons, List.foldl_cons, hline.putHeader]
      rfl
    | cons line' lines =>
      rw [pieces, List.foldl_cons, List.foldl_cons, hline.putHeader_cr]
      exact ih (fun l hl => h l (List.mem_cons_of_mem _ hl)) _

/-- A header is put under its name in lower case, without the white space around it. -/
theorem putLine_eq (headers : Headers) {line : String} {k v : List Char}
    (hline : line.toList = k ++ ':' :: v) (hk : ':' ∉ k) :
    putLine headers line =
      headers.insert (String.ofList (Text.lower (trim k))) (String.ofList (trim v)) := by
  rw [putLine, hline, Text.splitOnce_append hk]

/-- The request line falls into its three words. -/
theorem splitWhitespace_requestLine {method path : List Char} (hm : method ≠ [])
    (hmethod : ∀ c ∈ method, isSpace c = false) (hp : path ≠ [])
    (hpath : ∀ c ∈ path, isSpace c = false) (tail : List Char) :
    ∃ words, splitWhitespace (method ++ ' ' :: (path ++ ' ' :: tail)) = method :: path :: words := by
  refine ⟨splitWhitespace tail, ?_⟩
  have hspace : isSpace ' ' = true := by decide
  unfold splitWhitespace
  rw [List.splitOnP_append_cons_of_forall_mem hmethod ' ' hspace,
    List.splitOnP_append_cons_of_forall_mem hpath ' ' hspace]
  rw [List.filter_cons_of_pos (by simpa using hm), List.filter_cons_of_pos (by simpa using hp)]

theorem parseHead_headText {line line' : String} {lines : List String}
    (h : ∀ l ∈ line :: line' :: lines, IsLine l) {method path : List Char} {words : List (List Char)}
    (hwords : splitWhitespace (line.toList ++ ['\r']) = method :: path :: words) :
    parseHead (headText (line :: line' :: lines)) =
      some (String.ofList method, String.ofList path, (line' :: lines).foldl putLine OrdMap.empty) := by
  rw [parseHead, splitOn_headText (List.cons_ne_nil _ _) h, pieces]
  simp only [decodeLossy_line_cr, hwords]
  rw [foldl_pieces fun l hl => h l (List.mem_cons_of_mem _ hl)]

/-! ### Reads -/

/-- However the bytes are split into reads, the first loop ends with the whole head in the buffer;
what it has not read yet are the reads behind. -/
theorem readHead_chunks {whole : List UInt8} {i : ℕ} (hpos : position headEnd whole = some i)
    (hcap : i + headEnd.length ≤ maxHeadBytes) (htls : whole.head? ≠ some 0x16)
    (chunks : List (List UInt8)) (hchunks : ∀ c ∈ chunks, c ≠ []) (rest : List Received)
    (buf : List UInt8) (hwhole : buf ++ chunks.flatten = whole)
    (hbuf : buf.length < i + headEnd.length) :
    ∃ (front : List UInt8) (back : List (List UInt8)),
      readHead buf (chunks.map .data ++ rest) = some (front, back.map .data ++ rest) ∧
      front ++ back.flatten = whole ∧ (∀ c ∈ back, c ≠ []) ∧ i + headEnd.length ≤ front.length := by
  induction chunks generalizing buf with
  | nil =>
    -- all bytes have been read, and the end of the head is among them
    obtain ⟨hle, hat, -⟩ := position_eq_some_iff.mp hpos
    have hlength := hat.length_le
    rw [List.length_drop] at hlength
    rw [List.flatten_nil, List.append_nil] at hwhole
    rw [hwhole] at hbuf
    omega
  | cons c chunks ih =>
    obtain ⟨b, bs, rfl⟩ := List.exists_cons_of_ne_nil (hchunks c List.mem_cons_self)
    have hwhole' : (buf ++ b :: bs) ++ chunks.flatten = whole := by
      rw [← hwhole, List.flatten_cons, List.append_assoc]
    have hprefix : buf ++ b :: bs <+: whole := ⟨_, hwhole'⟩
    have hhello : isClientHello (buf ++ b :: bs) = false := by
      obtain ⟨x, xs, hx⟩ := List.exists_cons_of_ne_nil (show buf ++ b :: bs ≠ [] by simp)
      have hne : x ≠ 0x16 := by
        rintro rfl
        rw [← hwhole', hx] at htls
        exact htls rfl
      rw [hx]
      unfold isClientHello
      split
      · rename_i heq
        cases heq
        rw [beq_eq_false_iff_ne.mpr hne, Bool.false_and]
      · rfl
    have hfound := position_of_prefix hprefix hpos
    rw [List.map_cons, List.cons_append, readHead, if_neg (by rw [hhello]; decide), hfound]
    by_cases hend : i + headEnd.length ≤ (buf ++ b :: bs).length
    · refine ⟨buf ++ b :: bs, chunks, ?_, hwhole', ?_, hend⟩
      · rw [if_pos hend]
        rfl
      · exact fun c hc => hchunks c (List.mem_cons_of_mem _ hc)
    · have hsmall : ¬maxHeadBytes < (buf ++ b :: bs).length := by omega
      rw [if_neg hend, if_neg hsmall]
      exact ih (fun c hc => hchunks c (List.mem_cons_of_mem _ hc)) _ hwhole' (not_le.mp hend)

theorem arrived_chunks {chunks : List (List UInt8)} (hchunks : ∀ c ∈ chunks, c ≠ [])
    (rest : List Received) :
    arrived (chunks.map .data ++ rest) = chunks.flatten ++ arrived rest := by
  induction chunks with
  | nil => rfl
  | cons c chunks ih =>
    obtain ⟨b, bs, rfl⟩ := List.exists_cons_of_ne_nil (hchunks c List.mem_cons_self)
    rw [List.map_cons, List.cons_append, arrived, List.flatten_cons, List.append_assoc,
      ih fun c hc => hchunks c (List.mem_cons_of_mem _ hc)]

/-- A request is read as its head is parsed and with the body that its headers declare, however
its bytes are split into reads. -/
theorem readRequest_chunks {lines : List String} (hne : lines ≠ []) (h : ∀ l ∈ lines, IsLine l)
    {body : List UInt8} (hcap : (headText lines ++ headEnd).length ≤ maxHeadBytes)
    (htls : (headText lines).head? ≠ some 0x16) {method path : String} {headers : Headers}
    (hparse : parseHead (headText lines) = some (method, path, headers))
    (hlength : contentLength headers = some body.length) (hbody : body.length ≤ maxBodyBytes)
    {chunks : List (List UInt8)} (hchunks : ∀ c ∈ chunks, c ≠ [])
    (hflat : chunks.flatten = headText lines ++ headEnd ++ body) (rest : List Received) :
    readRequest (chunks.map .data ++ rest) = .request method path headers body := by
  have hpos := position_headText hne h body
  have htls' : (headText lines ++ headEnd ++ body).head? ≠ some 0x16 := by
    rw [List.append_assoc, List.head?_append]
    cases hhead : (headText lines).head? with
    | none => simp [headEnd, cr]
    | some b =>
      rw [hhead] at htls
      rwa [Option.some_or]
  rw [List.length_append] at hcap
  obtain ⟨front, back, hread, hwhole, hback, hfront⟩ := readHead_chunks hpos hcap htls' chunks hchunks
    rest [] hflat (by rw [List.length_nil]; exact Nat.lt_add_left _ (by decide))
  have hprefix : front <+: headText lines ++ headEnd ++ body := ⟨_, hwhole⟩
  have hfound := position_of_prefix hprefix hpos
  rw [if_pos hfront] at hfound
  have htake : front.take (headText lines).length = headText lines := by
    have htext : headText lines <+: front := by
      refine List.prefix_of_prefix_length_le ?_ hprefix (by omega)
      rw [List.append_assoc]
      exact List.prefix_append _ _
    exact (List.prefix_iff_eq_take.mp htext).symm
  have hrest : front.drop ((headText lines).length + headEnd.length) ++ back.flatten = body := by
    rw [← List.drop_append_of_le_length hfront, hwhole, ← List.length_append,
      List.drop_left]
  have hnil : front ≠ [] := by
    rintro rfl
    rw [List.length_nil] at hfront
    exact absurd hfront (by simp [headEnd])
  have hhead : receiveHead (chunks.map .data ++ rest) = some ⟨method, path, headers,
      front.drop ((headText lines).length + headEnd.length), back.map .data ++ rest⟩ := by
    rw [receiveHead, hread]
    simp only [Option.bind_some]
    rw [if_neg hnil, hfound, Option.bind_some, htake, hparse]
    rfl
  have harrived : front.drop ((headText lines).length + headEnd.length) ++
      arrived (back.map .data ++ rest) = body ++ arrived rest := by
    rw [arrived_chunks hback, ← List.append_assoc, hrest]
  obtain ⟨b, hb, hbtake⟩ := (readBody_eq body.length
    (front.drop ((headText lines).length + headEnd.length)) (back.map .data ++ rest)).1 (by
      rw [harrived, List.length_append]
      omega)
  rw [harrived, List.take_left] at hbtake
  rw [readRequest, hhead]
  simp only [hlength, Option.getD_some, if_neg (not_lt.mpr hbody), hb, hbtake]

/-! ### The lines that the client writes -/

theorem trim_space (cs : List Char) : trim (' ' :: cs) = trim cs := by
  have hspace : isSpace ' ' = true := by decide
  rw [trim, List.dropWhile_cons_of_pos hspace]
  rfl

theorem dropWhile_not_space {cs : List Char} (h : ∀ c ∈ cs, isSpace c = false) :
    cs.dropWhile isSpace = cs := by
  cases cs with
  | nil => rfl
  | cons c cs =>
    have hc : isSpace c = false := h c List.mem_cons_self
    rw [List.dropWhile_cons_of_neg (by rw [hc]; decide)]

theorem trim_of_not_space {cs : List Char} (h : ∀ c ∈ cs, isSpace c = false) : trim cs = cs := by
  have hrev : ∀ c ∈ cs.reverse, isSpace c = false := fun c hc => h c (List.mem_reverse.mp hc)
  rw [trim, dropWhile_not_space h, dropWhile_not_space hrev, List.reverse_reverse]

theorem isSpace_of_isDigit {c : Char} (h : c.isDigit = true) : isSpace c = false := by
  have hrange : 48 ≤ c.toNat ∧ c.toNat ≤ 57 := by
    simp only [Char.isDigit, Bool.and_eq_true, decide_eq_true_eq] at h
    exact ⟨UInt32.le_iff_toNat_le.mp h.1, UInt32.le_iff_toNat_le.mp h.2⟩
  simp only [isSpace, Bool.or_eq_false_iff, Bool.and_eq_false_iff, decide_eq_false_iff_not,
    beq_eq_false_iff_ne]
  omega

theorem isAlpha_range {c : Char} (h : c.isAlpha = true) :
    65 ≤ c.toNat ∧ c.toNat ≤ 90 ∨ 97 ≤ c.toNat ∧ c.toNat ≤ 122 := by
  rcases Bool.or_eq_true_iff.mp h with hupper | hlower
  · exact .inl (Text.isUpper_range hupper)
  · exact .inr (Text.isLower_range hlower)

theorem isSpace_of_isAlpha {c : Char} (h : c.isAlpha = true) : isSpace c = false := by
  have hrange := isAlpha_range h
  simp only [isSpace, Bool.or_eq_false_iff, Bool.and_eq_false_iff, decide_eq_false_iff_not,
    beq_eq_false_iff_ne]
  omega

theorem toString_not_space (n : ℕ) : ∀ c ∈ (toString n).toList, isSpace c = false :=
  fun _ hc => isSpace_of_isDigit (Text.isDigit_of_mem_toString hc)

/-- The name that a header is found under. -/
def headerName (name : String) : String := String.ofList (Text.lower (trim name.toList))

/-- A header line as the callers hand it to the client. -/
def authLine (a : String × String) : String := a.1 ++ ": " ++ a.2

/-- A header that the client may add to its own. -/
structure IsHeader (a : String × String) : Prop where
  colon : ':' ∉ a.1.toList
  name : OneLine a.1.toList
  value : OneLine a.2.toList
  other : headerName a.1 ∉ ["host", "content-type", "content-length", "connection"]

theorem OneLine.of_decide {cs : List Char} (h : cs.all (fun c => c != '\r' && c != '\n') = true) :
    OneLine cs := by
  rw [List.all_eq_true] at h
  exact ⟨fun hmem => absurd (h _ hmem) (by decide), fun hmem => absurd (h _ hmem) (by decide)⟩

theorem forall_not_of_decide {p : Char → Bool} {cs : List Char} (h : cs.all (fun c => !p c) = true) :
    ∀ c ∈ cs, p c = false := by
  intro c hc
  have hnot := List.all_eq_true.mp h c hc
  rwa [Bool.not_eq_eq_eq_not, Bool.not_true] at hnot

theorem parseU64_toString {n : ℕ} (hn : n < 2 ^ 64) : parseU64 (toString n).toList = some n := by
  have hplus : ∀ ds, (toString n).toList ≠ '+' :: ds := by
    intro ds hds
    exact Text.plus_notMem_toString n (hds ▸ List.mem_cons_self)
  unfold parseU64
  split
  · rename_i ds hds
    exact absurd hds (hplus ds)
  · simp only [Text.parseNat_toString]
    exact Option.filter_some_pos (decide_eq_true hn)

section Client

variable {host method path body : String} {port : UInt16} {auth : Option (String × String)}

theorem requestLines_eq : requestLines host port method path body (auth.map authLine) =
    [method ++ " " ++ path ++ " HTTP/1.1", "Host: " ++ host ++ ":" ++ toString port.toNat,
      "Content-Type: application/json"] ++ (auth.map authLine).toList ++
    ["Content-Length: " ++ toString (Utf8.bytes body).length, "Connection: close"] := by
  have hfilter : (auth.map authLine).filter (fun a => !a.isEmpty) = auth.map authLine := by
    cases auth with
    | none => rfl
    | some a =>
      refine Option.filter_some_pos ?_
      have hne : authLine a ≠ "" := by
        intro heq
        have := congrArg String.toList heq
        simp [authLine] at this
      simpa using hne
  rw [requestLines, hfilter]

variable (hm : method ≠ "") (hmethod : ∀ c ∈ method.toList, c.isAlpha = true)
  (hpath : ∀ c ∈ path.toList, isSpace c = false) (hhost : OneLine host.toList)
  (hauth : ∀ a ∈ auth, IsHeader a)

include hm hmethod hpath hhost hauth

theorem requestLines_isLine :
    ∀ l ∈ requestLines host port method path body (auth.map authLine), IsLine l := by
  have hdigits : ∀ n : ℕ, OneLine (toString n).toList := fun n =>
    .of_forall_not_space (toString_not_space n)
  have hmethod' : OneLine method.toList :=
    .of_forall_not_space fun c hc => isSpace_of_isAlpha (hmethod c hc)
  have hpath' : OneLine path.toList := .of_forall_not_space hpath
  intro l hl
  rw [requestLines_eq] at hl
  simp only [List.mem_append, List.mem_cons, List.not_mem_nil, or_false, Option.mem_toList,
    Option.map_eq_some_iff] at hl
  rcases hl with ((rfl | rfl | rfl) | ⟨a, ha, rfl⟩) | rfl | rfl
  · refine ⟨by simp [hm], ?_⟩
    simp only [String.toList_append]
    exact ((hmethod'.append (.of_decide (by decide))).append hpath').append (.of_decide (by decide))
  · refine ⟨by simp, ?_⟩
    simp only [String.toList_append]
    exact (((OneLine.of_decide (by decide)).append hhost).append (.of_decide (by decide))).append
      (hdigits _)
  · exact ⟨by decide, .of_decide (by decide)⟩
  · refine ⟨by simp [authLine], ?_⟩
    simp only [authLine, String.toList_append]
    exact ((hauth a ha).name.append (.of_decide (by decide))).append (hauth a ha).value
  · refine ⟨by simp, ?_⟩
    simp only [String.toList_append]
    exact (OneLine.of_decide (by decide)).append (hdigits _)
  · exact ⟨by decide, .of_decide (by decide)⟩

/-- The headers that the broker finds in a request. -/
structure HasHeaders (headers : Headers) (host : String) (port : UInt16) (body : List UInt8)
    (auth : Option (String × String)) : Prop where
  host : headers.get? "host" =
    some (String.ofList (trim (host ++ ":" ++ toString port.toNat).toList))
  contentType : headers.get? "content-type" = some "application/json"
  connection : headers.get? "connection" = some "close"
  length : headers.get? "content-length" = some (toString body.length)
  auth : ∀ a ∈ auth, headers.get? (headerName a.1) = some (String.ofList (trim a.2.toList))

omit hm hmethod hpath hhost in
theorem requestLines_headers : HasHeaders (((requestLines host port method path body
    (auth.map authLine)).tail).foldl putLine OrdMap.empty) host port (Utf8.bytes body) auth := by
  have hHost : ∀ h, putLine h ("Host: " ++ host ++ ":" ++ toString port.toNat) = h.insert "host"
      (String.ofList (trim (host ++ ":" ++ toString port.toNat).toList)) := by
    intro h
    have hline : ("Host: " ++ host ++ ":" ++ toString port.toNat).toList =
        "Host".toList ++ ':' :: (' ' :: (host ++ ":" ++ toString port.toNat).toList) := by
      simp [String.toList_append]
    rw [putLine_eq h hline (by decide), trim_space]
    rfl
  have hType : ∀ h, putLine h "Content-Type: application/json" =
      h.insert "content-type" "application/json" := fun h =>
    putLine_eq h (k := "Content-Type".toList) (v := " application/json".toList) rfl (by decide)
  have hConnection : ∀ h, putLine h "Connection: close" = h.insert "connection" "close" := fun h =>
    putLine_eq h (k := "Connection".toList) (v := " close".toList) rfl (by decide)
  have hLength : ∀ h (n : ℕ), putLine h ("Content-Length: " ++ toString n) =
      h.insert "content-length" (toString n) := by
    intro h n
    have hline : ("Content-Length: " ++ toString n).toList =
        "Content-Length".toList ++ ':' :: (' ' :: (toString n).toList) := by
      simp [String.toList_append]
    rw [putLine_eq h hline (by decide), trim_space, trim_of_not_space (toString_not_space n),
      String.ofList_toList]
    rfl
  have hAuth : ∀ a ∈ auth, ∀ h, putLine h (authLine a) =
      h.insert (headerName a.1) (String.ofList (trim a.2.toList)) := by
    intro a ha h
    have hline : (authLine a).toList = a.1.toList ++ ':' :: (' ' :: a.2.toList) := by
      simp [authLine, String.toList_append]
    rw [putLine_eq h hline (hauth a ha).colon, trim_space]
    rfl
  rw [requestLines_eq]
  cases auth with
  | none =>
    simp only [Option.map_none, Option.toList_none, List.append_nil, List.cons_append,
      List.nil_append, List.tail_cons, List.foldl_cons, List.foldl_nil, hHost, hType, hLength,
      hConnection]
    constructor <;> simp
  | some a =>
    have hother := (hauth a rfl).other
    simp only [List.mem_cons, List.not_mem_nil, or_false, not_or] at hother
    obtain ⟨hne1, hne2, hne3, hne4⟩ := hother
    simp only [Option.map_some, Option.toList_some, List.cons_append,
      List.nil_append, List.tail_cons, List.foldl_cons, List.foldl_nil, hHost, hType, hLength,
      hConnection, hAuth a rfl]
    constructor
    · simp [Ne.symm hne1]
    · simp [Ne.symm hne2]
    · simp
    · simp
    · intro a' ha'
      obtain rfl := Option.mem_some.mp ha'
      simp [hne3, hne4]

omit hpath hhost hauth in
/-- A request does not start like a TLS handshake. -/
theorem requestLines_head :
    (headText (requestLines host port method path body (auth.map authLine))).head? ≠ some 0x16 := by
  obtain ⟨c, cs, hcs⟩ := List.exists_cons_of_ne_nil (show method.toList ≠ [] by simpa using hm)
  have hrange := isAlpha_range (hmethod c (by rw [hcs]; exact List.mem_cons_self))
  have hascii : c.toNat < 0x80 := by omega
  have hbytes : ∃ bs, Utf8.bytes (method ++ " " ++ path ++ " HTTP/1.1") = c.toUInt8 :: bs := by
    rw [Utf8.bytes]
    simp only [String.toList_append, hcs, List.cons_append, List.flatMap_cons,
      Utf8.encode_of_ascii hascii]
    exact ⟨_, rfl⟩
  obtain ⟨bs, hbs⟩ := hbytes
  intro hhead
  simp only [requestLines_eq, List.cons_append, headText_cons_cons, hbs, List.head?_cons,
    Option.some.injEq] at hhead
  have hnat : c.toNat = 0x16 := by
    rw [← Utf8.toNat_toUInt8 hascii, hhead]
    rfl
  omega

theorem parseHead_requestLines (hp : path ≠ "") : ∃ headers,
    parseHead (headText (requestLines host port method path body (auth.map authLine))) =
      some (method, path, headers) ∧ HasHeaders headers host port (Utf8.bytes body) auth := by
  have hlines := @requestLines_isLine _ _ _ body port _ hm hmethod hpath hhost hauth
  have hspace : ∀ c ∈ method.toList, isSpace c = false := fun c hc =>
    isSpace_of_isAlpha (hmethod c hc)
  obtain ⟨words, hwords⟩ := splitWhitespace_requestLine (by simpa using hm) hspace
    (by simpa using hp) hpath "HTTP/1.1\r".toList
  have htext : (method ++ " " ++ path ++ " HTTP/1.1").toList ++ ['\r'] =
      method.toList ++ ' ' :: (path.toList ++ ' ' :: "HTTP/1.1\r".toList) := by
    simp [String.toList_append]
  rw [← htext] at hwords
  refine ⟨_, (parseHead_headText hlines hwords).trans ?_,
    @requestLines_headers host method path body port auth hauth⟩
  rw [String.ofList_toList, String.ofList_toList]
  rfl

end Client

/-- What the client writes is what the broker reads, however the bytes are split into reads and
whatever the stream holds behind them. -/
theorem readRequest_requestBytes (host : String) (port : UInt16) (method path body : String)
    (auth : Option (String × String)) (chunks : List (List UInt8)) (rest : List Received)
    (hm : method ≠ "") (hmethod : ∀ c ∈ method.toList, c.isAlpha = true)
    (hp : path ≠ "") (hpath : ∀ c ∈ path.toList, isSpace c = false)
    (hhost : OneLine host.toList) (hauth : ∀ a ∈ auth, IsHeader a)
    (hhead : (requestHead host port method path body (auth.map authLine)).length ≤ maxHeadBytes)
    (hbody : (Utf8.bytes body).length ≤ maxBodyBytes) (hchunks : ∀ c ∈ chunks, c ≠ [])
    (hflat : chunks.flatten = requestBytes host port method path body (auth.map authLine)) :
    ∃ headers, readRequest (chunks.map .data ++ rest) =
        .request method path headers (Utf8.bytes body) ∧
      HasHeaders headers host port (Utf8.bytes body) auth := by
  have hlines := @requestLines_isLine _ _ _ body port _ hm hmethod hpath hhost hauth
  have hne : requestLines host port method path body (auth.map authLine) ≠ [] :=
    List.cons_ne_nil _ _
  obtain ⟨headers, hparse, hhas⟩ :=
    @parseHead_requestLines _ _ _ body port _ hm hmethod hpath hhost hauth hp
  rw [requestHead, headText_append_headEnd hne] at hhead
  rw [requestBytes, requestHead, headText_append_headEnd hne] at hflat
  have hlength : contentLength headers = some (Utf8.bytes body).length := by
    rw [contentLength, hhas.length, Option.bind_some, parseU64_toString]
    exact lt_of_le_of_lt hbody (by decide)
  have htls := @requestLines_head host _ path body port auth hm hmethod
  exact ⟨headers, readRequest_chunks hne hlines hhead htls hparse hlength hbody hchunks hflat rest,
    hhas⟩

/-- A ping with a token, split in its first word and in the end of its head. -/
def pingChunks : List (List UInt8) :=
  let bs := requestBytes "lan" 8080 "POST" "/party/ping" "\r\n\r\n" (some "X-EntityToken: abc")
  [bs.take 2, (bs.drop 2).take 131, bs.drop 133]

theorem readRequest_ping : ∃ headers,
    readRequest (pingChunks.map .data ++ []) =
        .request "POST" "/party/ping" headers (Utf8.bytes "\r\n\r\n") ∧
      HasHeaders headers "lan" 8080 (Utf8.bytes "\r\n\r\n") (some ("X-EntityToken", "abc")) := by
  refine readRequest_requestBytes "lan" 8080 "POST" "/party/ping" "\r\n\r\n"
    (some ("X-EntityToken", "abc")) pingChunks [] ?_ ?_ ?_ ?_ ?_ ?_ ?_ ?_ ?_ ?_
  · decide +kernel
  · exact List.all_eq_true.mp (by decide)
  · decide +kernel
  · exact forall_not_of_decide (by decide)
  · exact .of_decide (by decide)
  · intro a ha
    obtain rfl := Option.mem_some.mp ha
    exact ⟨by decide, .of_decide (by decide), .of_decide (by decide), by decide⟩
  · decide +kernel
  · decide +kernel
  · decide +kernel
  · decide +kernel

end GbfrLan.Http
