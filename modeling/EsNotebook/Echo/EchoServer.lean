import EsNotebook.Lib.CMemory

/-!
# The echo server

`sample_echo_server.c` is given the bytes of a connection in chunks.  libuv
fills the front of a freshly allocated buffer and calls `echo_read`, which
looks for the keyword in the first four bytes of the buffer, whether or not
they have been read from the connection.  What it then does with a stream of
bytes depends on where the chunks end and on the old contents of the buffers,
unless no chunk can begin with the keyword.
-/

namespace EsNotebook.Echo

open CMemory

/-- What `echo_read` does with a buffer and its connection. -/
inductive EchoAction where
  /-- `free(buf->base)` -/
  | freeBuffer
  | uvShutdown
  | uvClose
  | uvWrite (data : Bytes)
  deriving DecidableEq, Repr

/-- The string literal `"quit"`. -/
def quitLiteral : Bytes := [113, 117, 105, 116, 0]

/-- `echo_read` on the buffer at `buf->base`, of which the first `nread` bytes
are new. -/
def echoRead (nread : ℤ) (base : Bytes) : Option (List EchoAction) :=
  if nread < 0 then some [.freeBuffer, .uvShutdown]
  else if nread = 0 then some [.freeBuffer]
  else do
    let cmp ← strncmp base quitLiteral 4
    -- the comparison is not bounded by `nread`
    if cmp = 0 then some [.uvClose]
    else some [.uvWrite (base.take nread.toNat)]

/-- A buffer of `suggested_size` bytes whose front libuv has filled. -/
structure ReadChunk (size : ℕ) where
  data : Bytes
  /-- old contents of the memory that `malloc` returned -/
  rest : Bytes
  data_ne_nil : data ≠ []
  length_eq : (data ++ rest).length = size

namespace ReadChunk

variable {size : ℕ}

def base (ch : ReadChunk size) : Bytes := ch.data ++ ch.rest

theorem data_length_pos (ch : ReadChunk size) : 0 < ch.data.length :=
  List.length_pos_of_ne_nil ch.data_ne_nil

/-- The test for the keyword succeeds. -/
def Quits (ch : ReadChunk size) : Prop := ch.base.take 4 = quitLiteral.take 4

/-- A chunk of the one byte `b` before the old contents `rest`. -/
def single (b : UInt8) (rest : Bytes) (h : rest.length + 1 = size) : ReadChunk size :=
  { data := [b]
    rest := rest
    data_ne_nil := by simp
    length_eq := by simpa using h }

end ReadChunk

/-- What a connection has got back, how much of it has been read, and how much
had been read before the chunk at which the server closed it. -/
structure Connection where
  echoed : Bytes
  received : ℕ
  closedAfter : Option ℕ

namespace Connection

def accepted : Connection :=
  { echoed := [], received := 0, closedAfter := none }

def perform (c : Connection) : EchoAction → Connection
  | .freeBuffer => c
  | .uvShutdown | .uvClose => { c with closedAfter := some c.received }
  | .uvWrite data => { c with echoed := c.echoed ++ data }

variable {size : ℕ}

/-- One read callback.  A closing handle gets no more of them. -/
def read (c : Connection) (ch : ReadChunk size) : Option Connection :=
  if c.closedAfter.isSome then some c
  else do
    let actions ← echoRead ch.data.length ch.base
    let c' := actions.foldl perform c
    some { c' with received := c.received + ch.data.length }

end Connection

variable {size : ℕ}

/-- The bytes of the connection, in the order in which they are read. -/
def streamOf (cs : List (ReadChunk size)) : Bytes :=
  (cs.map ReadChunk.data).flatten

/-- A connection whose bytes arrive in these chunks. -/
def serve (cs : List (ReadChunk size)) : Option Connection :=
  cs.foldlM Connection.read .accepted

/-- Every two ways of reading `stream` are served alike: the same bytes come
back, and the connection is closed at the same point, if at all. -/
def DependsOnlyOnStream (size : ℕ) (stream : Bytes) : Prop :=
  ∀ cs cs' : List (ReadChunk size), streamOf cs = stream → streamOf cs' = stream →
    ∃ c c', serve cs = some c ∧ serve cs' = some c' ∧
      c.echoed = c'.echoed ∧ c.closedAfter = c'.closedAfter

/-! ## One read -/

theorem strncmp_quit_eq_zero_iff {base : Bytes} :
    strncmp base quitLiteral 4 = some 0 ↔ base.take 4 = quitLiteral.take 4 := by
  apply strncmp_eq_zero_iff
  · decide
  · decide

theorem echoRead_of_quits {ch : ReadChunk size} (h : ch.Quits) :
    echoRead ch.data.length ch.base = some [.uvClose] := by
  have hpos := ch.data_length_pos
  have hcmp := strncmp_quit_eq_zero_iff.mpr h
  unfold echoRead
  rw [if_neg (by omega), if_neg (by omega), hcmp]
  rfl

/-- A chunk is written back whole unless the test succeeds.  The buffer is
large enough for the test. -/
theorem echoRead_of_not_quits (hsize : 4 ≤ size) {ch : ReadChunk size} (h : ¬ch.Quits) :
    echoRead ch.data.length ch.base = some [.uvWrite ch.data] := by
  have hpos := ch.data_length_pos
  have hlen : 4 ≤ ch.base.length := by
    rw [ReadChunk.base, ch.length_eq]
    exact hsize
  obtain ⟨cmp, hcmp⟩ := Option.isSome_iff_exists.mp
    (strncmp_isSome (b := quitLiteral) hlen (by decide))
  have hne : cmp ≠ 0 := by
    intro hzero
    apply h
    apply strncmp_quit_eq_zero_iff.mp
    rw [hcmp, hzero]
  unfold echoRead
  rw [if_neg (by omega), if_neg (by omega), hcmp, Option.bind_eq_bind, Option.bind_some,
    if_neg hne]
  simp [ReadChunk.base]

theorem read_of_quits {c : Connection} {ch : ReadChunk size} (hopen : c.closedAfter = none)
    (h : ch.Quits) : c.read ch = some
      { c with received := c.received + ch.data.length, closedAfter := some c.received } := by
  simp [Connection.read, hopen, echoRead_of_quits h, Connection.perform]

theorem read_of_not_quits (hsize : 4 ≤ size) {c : Connection} {ch : ReadChunk size}
    (hopen : c.closedAfter = none) (h : ¬ch.Quits) : c.read ch = some
      { c with received := c.received + ch.data.length, echoed := c.echoed ++ ch.data } := by
  simp [Connection.read, hopen, echoRead_of_not_quits hsize h, Connection.perform]

/-! ## A whole connection -/

theorem serve_of_closed {c : Connection} (hclosed : c.closedAfter.isSome)
    (cs : List (ReadChunk size)) : cs.foldlM Connection.read c = some c := by
  induction cs with
  | nil => rfl
  | cons ch cs ih => simp [Connection.read, hclosed, ih]

/-- As long as no chunk quits, the connection gets back what it sends. -/
theorem serve_of_not_quits (hsize : 4 ≤ size) {c : Connection} {cs : List (ReadChunk size)}
    (hopen : c.closedAfter = none) (h : ∀ ch ∈ cs, ¬ch.Quits) :
    cs.foldlM Connection.read c = some
      { echoed := c.echoed ++ streamOf cs
        received := c.received + (streamOf cs).length
        closedAfter := none } := by
  induction cs generalizing c with
  | nil =>
      cases c
      simpa [streamOf] using hopen
  | cons ch cs ih =>
      have hrest : ∀ ch' ∈ cs, ¬ch'.Quits := fun ch' hmem ↦ h ch' (by simp [hmem])
      rw [List.foldlM_cons, read_of_not_quits hsize hopen (h ch (by simp)),
        Option.bind_eq_bind, Option.bind_some, ih (by exact hopen) hrest]
      simp [streamOf, Nat.add_assoc]

/-- The first chunk that quits ends the connection; it is not written back. -/
theorem serve_of_quits (hsize : 4 ≤ size) {cs : List (ReadChunk size)} {ch : ReadChunk size}
    (ds : List (ReadChunk size)) (h : ∀ ch' ∈ cs, ¬ch'.Quits) (hquit : ch.Quits) :
    ∃ n, serve (cs ++ ch :: ds) = some
      { echoed := streamOf cs, received := n, closedAfter := some (streamOf cs).length } := by
  refine ⟨(streamOf cs).length + ch.data.length, ?_⟩
  rw [serve, List.foldlM_append, serve_of_not_quits hsize rfl h, Option.bind_eq_bind,
    Option.bind_some, List.foldlM_cons, read_of_quits rfl hquit, Option.bind_eq_bind,
    Option.bind_some]
  simp only [Connection.accepted, List.nil_append, Nat.zero_add]
  exact serve_of_closed rfl ds

/-- The first byte of `quit`. -/
def letterQ : UInt8 := 113

theorem letterQ_mem_of_quits {ch : ReadChunk size} (h : ch.Quits) : letterQ ∈ ch.data := by
  cases hdata : ch.data with
  | nil => exact absurd hdata ch.data_ne_nil
  | cons b bs =>
      have hfirst : b = letterQ := by
        have htake := congrArg List.head? h
        simpa [ReadChunk.base, hdata, quitLiteral, letterQ] using htake
      simp [hfirst]

theorem not_quits_of_letterQ_notMem {cs : List (ReadChunk size)} (h : letterQ ∉ streamOf cs) :
    ∀ ch ∈ cs, ¬ch.Quits := by
  intro ch hmem hquit
  apply h
  apply List.mem_flatten.mpr
  exact ⟨ch.data, List.mem_map_of_mem hmem, letterQ_mem_of_quits hquit⟩

/-- `stream` byte by byte, in buffers of zeros. -/
def singles (hsize : 0 < size) (stream : Bytes) : List (ReadChunk size) :=
  stream.map fun b ↦ .single b (List.replicate (size - 1) 0) (by simp; omega)

@[simp] theorem streamOf_singles (hsize : 0 < size) (stream : Bytes) :
    streamOf (singles hsize stream) = stream := by
  induction stream with
  | nil => rfl
  | cons b stream ih =>
      have hcons : streamOf (singles hsize (b :: stream)) =
          b :: streamOf (singles hsize stream) := rfl
      rw [hcons, ih]

theorem singles_not_quits (hsize : 4 ≤ size) (stream : Bytes) :
    ∀ ch ∈ singles (by omega : 0 < size) stream, ¬ch.Quits := by
  intro ch hmem hquit
  obtain ⟨b, -, rfl⟩ := List.mem_map.mp hmem
  obtain ⟨n, rfl⟩ : ∃ n, size = n + 4 := ⟨size - 4, by omega⟩
  simp [ReadChunk.Quits, ReadChunk.base, ReadChunk.single, quitLiteral,
    List.replicate_succ] at hquit

/-- What the server does with a stream is determined by the stream exactly
when the letter `q` is not in it: a read may begin and end at that letter, and
the rest of the keyword is then old memory. -/
theorem depends_only_on_stream_iff (hsize : 4 ≤ size) (stream : Bytes) :
    DependsOnlyOnStream size stream ↔ letterQ ∉ stream := by
  have hpos : 0 < size := by omega
  constructor
  · intro h hmem
    obtain ⟨pre, post, rfl⟩ := List.append_of_mem hmem
    have hrest : (117 :: 105 :: 116 :: List.replicate (size - 4) (0 : UInt8)).length + 1 =
        size := by
      simp
      omega
    have hquit : (ReadChunk.single letterQ _ hrest).Quits := rfl
    have hstream : streamOf (singles hpos pre ++
        ReadChunk.single letterQ _ hrest :: singles hpos post) = pre ++ letterQ :: post := by
      have hsplit : streamOf (singles hpos pre ++
          ReadChunk.single letterQ _ hrest :: singles hpos post) =
            streamOf (singles hpos pre) ++ letterQ :: streamOf (singles hpos post) := by
        simp [streamOf, ReadChunk.single]
      rw [hsplit, streamOf_singles, streamOf_singles]
    obtain ⟨c, c', hc, hc', -, hclosed⟩ := h _ _ hstream (streamOf_singles hpos _)
    obtain ⟨n, hn⟩ := serve_of_quits hsize (singles hpos post)
      (singles_not_quits hsize pre) hquit
    have hwhole := serve_of_not_quits (c := .accepted) hsize rfl
      (singles_not_quits hsize (pre ++ letterQ :: post))
    obtain rfl := Option.some.inj (hn.symm.trans hc)
    obtain rfl := Option.some.inj (hwhole.symm.trans hc')
    cases hclosed
  · rintro hno cs cs' rfl hcs'
    have hcs := serve_of_not_quits (c := .accepted) hsize rfl (not_quits_of_letterQ_notMem hno)
    have hother := serve_of_not_quits (c := .accepted) hsize rfl
      (not_quits_of_letterQ_notMem (hcs' ▸ hno : letterQ ∉ streamOf cs'))
    exact ⟨_, _, hcs, hother, by simp [hcs'], rfl⟩

theorem depends_only_on_stream_hi : DependsOnlyOnStream 65536 [72, 105] :=
  (depends_only_on_stream_iff (by decide) [72, 105]).mpr (by decide)

/-- The keyword in one chunk closes the connection; cut in two it is echoed. -/
theorem keyword_cut_in_two (n : ℕ) : ¬DependsOnlyOnStream (n + 4) [113, 117, 105, 116] := by
  intro h
  let zeros : Bytes := List.replicate n 0
  let whole : ReadChunk (n + 4) := ⟨[113, 117, 105, 116], zeros, by simp, by simp [zeros]⟩
  let first : ReadChunk (n + 4) := ⟨[113, 117], 0 :: 0 :: zeros, by simp, by simp [zeros]⟩
  let second : ReadChunk (n + 4) := ⟨[105, 116], 0 :: 0 :: zeros, by simp, by simp [zeros]⟩
  have hcut : ∀ ch ∈ [first, second], ¬ch.Quits := by
    simp [ReadChunk.Quits, ReadChunk.base, first, second, quitLiteral]
  obtain ⟨c, c', hc, hc', -, hclosed⟩ := h [whole] [first, second] rfl rfl
  have hquit : whole.Quits := rfl
  have hnone : ∀ ch ∈ ([] : List (ReadChunk (n + 4))), ¬ch.Quits := by simp
  obtain ⟨k, hk⟩ := serve_of_quits (by simp) [] hnone hquit
  have hechoed := serve_of_not_quits (c := .accepted) (by simp) rfl hcut
  obtain rfl := Option.some.inj (hk.symm.trans hc)
  obtain rfl := Option.some.inj (hechoed.symm.trans hc')
  cases hclosed

theorem keyword_cut_in_two_64k : ¬DependsOnlyOnStream 65536 [113, 117, 105, 116] :=
  keyword_cut_in_two 65532

end EsNotebook.Echo
