import GbfrLan.Http.Request

/-!
# Requests that arrive in part

A stream can end while the head or the body is read, by its end, a timeout or an error. All of
these drop a request whose head is not complete. A body that is cut by an error or a timeout is
dropped too, but one that is cut by the end of the stream is taken for a whole one.
-/
namespace GbfrLan.Http
open Lib

/-- The bytes that arrive until the stream ends or fails. -/
def arrived : List Received → List UInt8
  | .data (b :: bs) :: rest => b :: bs ++ arrived rest
  | _ => []

/-- The stream comes to its end without failing. -/
def endsInEof : List Received → Bool
  | .data (_ :: _) :: rest => endsInEof rest
  | .failed _ :: _ => false
  | _ => true

/-- The second loop: it stops when enough has arrived, or takes what there is at the end of the
stream. -/
theorem readBody_eq (want : ℕ) (body : List UInt8) (stream : List Received) :
    (want ≤ (body ++ arrived stream).length →
      ∃ b, readBody want body stream = some b ∧ b.take want = (body ++ arrived stream).take want) ∧
    ((body ++ arrived stream).length < want → readBody want body stream =
      if endsInEof stream then some (body ++ arrived stream) else none) := by
  induction stream generalizing body with
  | nil => simp [readBody, arrived, endsInEof]
  | cons r rest ih =>
    by_cases henough : want ≤ body.length
    · have hread : readBody want body (r :: rest) = some body := by
        unfold readBody
        rw [if_pos henough]
      constructor
      · intro _
        refine ⟨body, hread, ?_⟩
        rw [List.take_append_of_le_length henough]
      · intro hlt
        rw [List.length_append] at hlt
        omega
    · match r with
      | .failed timedOut =>
        have hread : readBody want body (.failed timedOut :: rest) = none := by
          unfold readBody
          rw [if_neg henough]
        constructor
        · intro hle
          simp only [arrived, List.append_nil] at hle
          omega
        · intro _
          rw [hread]
          rfl
      | .data [] =>
        have hread : readBody want body (.data [] :: rest) = some body := by
          unfold readBody
          rw [if_neg henough]
        constructor
        · intro hle
          simp only [arrived, List.append_nil] at hle
          omega
        · intro _
          rw [hread]
          simp [arrived, endsInEof]
      | .data (b :: bs) =>
        have hread : readBody want body (.data (b :: bs) :: rest) =
            readBody want (body ++ b :: bs) rest := by
          rw [readBody, if_neg henough]
        have harrived : body ++ arrived (.data (b :: bs) :: rest) =
            body ++ b :: bs ++ arrived rest := by
          rw [arrived, List.append_assoc]
        rw [hread, harrived]
        exact ih (body ++ b :: bs)

/-- No request is dispatched with less of its body than its head declares, and a stream that ends
before all of it has arrived is dropped. -/
structure NeverHalf (stream : List Received) : Prop where
  whole : ∀ method path headers body n, readRequest stream = .request method path headers body →
    contentLength headers = some n → body.length = n
  dropped : ∀ h n, receiveHead stream = some h → contentLength h.headers = some n →
    (h.body ++ arrived h.rest).length < n → readRequest stream = .dropped

/-- A request is never dispatched in part, exactly when the stream, where it ends before a body of
the declared length, does so by failing, and that length is within the cap. -/
theorem neverHalf_iff (stream : List Received) : NeverHalf stream ↔
    ∀ h n, receiveHead stream = some h → contentLength h.headers = some n →
      (h.body ++ arrived h.rest).length < n → n ≤ maxBodyBytes ∧ endsInEof h.rest = false := by
  constructor
  · intro hnever h n hhead hn hshort
    have hdropped := hnever.dropped h n hhead hn hshort
    have hread := (readBody_eq n h.body h.rest).2 hshort
    simp only [readRequest, hhead, hn, Option.getD_some, hread] at hdropped
    by_cases hlarge : maxBodyBytes < n
    · rw [if_pos hlarge] at hdropped
      cases hdropped
    · refine ⟨not_lt.mp hlarge, ?_⟩
      rw [if_neg hlarge] at hdropped
      by_contra heof
      rw [Bool.not_eq_false] at heof
      simp only [heof, if_true] at hdropped
      cases hdropped
  · intro hcond
    constructor
    · intro method path headers body n hrequest hn
      cases hhead : receiveHead stream with
      | none =>
        simp only [readRequest, hhead] at hrequest
        cases hrequest
      | some h =>
        simp only [readRequest, hhead] at hrequest
        split_ifs at hrequest with hlarge
        split at hrequest
        · cases hrequest
        · rename_i b hb
          simp only [ReadResult.request.injEq] at hrequest
          obtain ⟨-, -, rfl, rfl⟩ := hrequest
          rw [hn, Option.getD_some] at hb ⊢
          obtain ⟨hwhole, hpart⟩ := readBody_eq n h.body h.rest
          by_cases hle : n ≤ (h.body ++ arrived h.rest).length
          · obtain ⟨b', hb', htake⟩ := hwhole hle
            rw [hb, Option.some.injEq] at hb'
            rw [hb', htake, List.length_take]
            exact Nat.min_eq_left hle
          · obtain ⟨-, heof⟩ := hcond h n hhead hn (not_le.mp hle)
            rw [hpart (not_le.mp hle), heof] at hb
            cases hb
    · intro h n hhead hn hshort
      obtain ⟨hle, heof⟩ := hcond h n hhead hn hshort
      have hread := (readBody_eq n h.body h.rest).2 hshort
      rw [heof] at hread
      simp only [readRequest, hhead, hn, Option.getD_some, hread, if_neg (not_lt.mpr hle)]
      rfl

/-- The head of a join with a body of ten bytes, and four of them. -/
def halfJoin : List Received :=
  [.data (Utf8.bytes "POST /party/join HTTP/1.1\r\nContent-Length: 10\r\n\r\nabcd")]

/-- A join of which the end is missing is dispatched. -/
theorem half_join_dispatched : ¬NeverHalf halfJoin := by
  intro hnever
  have hread : ∃ headers, readRequest halfJoin =
      .request "POST" "/party/join" headers (Utf8.bytes "abcd") ∧ contentLength headers = some 10 := by
    refine ⟨(OrdMap.empty : Headers).insert "content-length" "10", ?_, ?_⟩
    · decide +kernel
    · decide +kernel
  obtain ⟨headers, hrequest, hn⟩ := hread
  exact absurd (hnever.whole _ _ _ _ _ hrequest hn) (by decide +kernel)

end GbfrLan.Http
