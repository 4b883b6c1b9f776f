import SealedLink.Proofs.Stream.Metered

/-!
# Dialogues with a stream that ends

`Yields d unread trace a left` says what a dialogue does with a stream of which `unread` is all that
will ever come: it moves exactly the bytes of the trace, ends with `a` and leaves `left`, however
the stream cuts reads and writes into pieces. `Brittle fail d` says that the dialogue ends at once
when a call fails.
-/

namespace SealedLink

namespace Dialogue

variable {β γ : Type}

inductive Yields : Dialogue β → (unread : Bytes) → List Octet → β → (left : Bytes) → Prop where
  | done (a : β) (unread : Bytes) : Yields (.done a) unread [] a unread
  | flush {next unread trace a left} (h : Yields (next (.ok ())) unread trace a left) :
      Yields (.flush next) unread trace a left
  | write {bytes next unread trace a left} (hb : bytes ≠ [])
      (h : ∀ taken rest, bytes = taken ++ rest → taken ≠ [] →
        Yields (next (.ok taken.length)) unread (outs rest ++ trace) a left) :
      Yields (.write bytes next) unread (outs bytes ++ trace) a left
  | read {limit next unread trace a left} (hlimit : 0 < limit) (hu : unread ≠ [])
      (h : ∀ got rest, unread.take limit = got ++ rest → got ≠ [] →
        Yields (next (.ok got)) (unread.drop got.length) (inns rest ++ trace) a left) :
      Yields (.read limit next) unread (inns (unread.take limit) ++ trace) a left
  | ended {limit next trace a left} (hlimit : 0 < limit)
      (h : Yields (next (.ok [])) [] trace a left) : Yields (.read limit next) [] trace a left

theorem Yields.bind {d : Dialogue β} {f : β → Dialogue γ} {unread left left' : Bytes}
    {s t : List Octet} {a : β} {b : γ} (h : Yields d unread s a left)
    (hf : Yields (f a) left t b left') : Yields (d.bind f) unread (s ++ t) b left' := by
  induction h with
  | done a unread => exact hf
  | flush _ ih => exact .flush (ih hf)
  | write hb _ ih =>
    rw [List.append_assoc]
    refine .write hb fun taken rest hsplit hne => ?_
    rw [← List.append_assoc]
    exact ih taken rest hsplit hne hf
  | read hlimit hu _ ih =>
    rw [List.append_assoc]
    refine .read hlimit hu fun got rest hsplit hne => ?_
    rw [← List.append_assoc]
    exact ih got rest hsplit hne hf
  | ended hlimit _ ih => exact .ended hlimit (ih hf)

theorem Yields.split {d : Dialogue β} {unread left : Bytes} {trace : List Octet} {a : β}
    (h : Yields d unread trace a left) : unread = readIn trace ++ left := by
  induction h with
  | done a unread => rfl
  | flush _ ih => exact ih
  | @write bytes next unread trace a left hb _ ih =>
    rw [readIn_append, readIn_outs, List.nil_append]
    exact ih bytes [] (List.append_nil bytes).symm hb
  | @read limit next unread trace a left hlimit hu _ ih =>
    have hgot : unread.take limit ≠ [] := by
      rw [Ne, List.take_eq_nil_iff]
      rintro (h | h)
      · omega
      · exact hu h
    have hall := ih (unread.take limit) [] (List.append_nil _).symm hgot
    rw [inns_nil, List.nil_append] at hall
    rw [readIn_append, readIn_inns, List.append_assoc, ← hall]
    exact (List.prefix_iff_eq_append.mp (List.take_prefix limit unread)).symm
  | ended _ _ ih => exact ih

theorem Follows.yields {d : Dialogue β} {trace : List Octet} {a : β} (h : Follows d trace a)
    (left : Bytes) : Yields d (readIn trace ++ left) trace a left := by
  induction h with
  | done a => exact .done a left
  | flush _ ih => exact .flush ih
  | @write bytes next trace a hb _ ih =>
    rw [readIn_append, readIn_outs, List.nil_append]
    refine .write hb fun taken rest hsplit hne => ?_
    have h := ih taken rest hsplit hne
    rwa [readIn_append, readIn_outs, List.nil_append] at h
  | @read bytes next trace a hb _ ih =>
    rw [readIn_append, readIn_inns, List.append_assoc]
    have htake : (bytes ++ (readIn trace ++ left)).take bytes.length = bytes := List.take_left
    have hread : Yields (.read bytes.length next) (bytes ++ (readIn trace ++ left))
        (inns ((bytes ++ (readIn trace ++ left)).take bytes.length) ++ trace) a left := by
      refine .read (List.length_pos_iff.mpr hb) (by simp [hb]) fun got rest hsplit hne => ?_
      rw [htake] at hsplit
      have h := ih got rest hsplit hne
      rw [readIn_append, readIn_inns, List.append_assoc] at h
      have hdrop : (bytes ++ (readIn trace ++ left)).drop got.length =
          rest ++ (readIn trace ++ left) := by
        rw [hsplit, List.append_assoc]
        exact List.drop_left
      rwa [hdrop]
    rwa [htake] at hread

theorem yields_fill (missing : Nat) (unread got : Bytes) :
    Yields (fill missing got) unread (inns (unread.take missing))
      (.ok (got.reverse ++ unread.take missing)) (unread.drop missing) := by
  induction missing using Nat.strongRecOn generalizing unread got with
  | _ missing ih =>
    unfold fill
    split
    · rename_i hnone
      subst hnone
      rw [List.take_zero, List.append_nil, List.drop_zero]
      exact .done _ _
    · rename_i hsome
      rcases unread with - | ⟨b, bytes⟩
      · rw [List.take_nil, List.append_nil, List.drop_nil]
        exact .ended (by omega) (.done _ _)
      · rw [← List.append_nil (inns _)]
        refine .read (by omega) (List.cons_ne_nil b bytes) fun now rest hsplit hnow => ?_
        obtain ⟨c, more, rfl⟩ := List.exists_cons_of_ne_nil hnow
        -- What is still missing of the first bytes is what the next reads give.
        have hlater : ((b :: bytes).drop (more.length + 1)).take (missing - (more.length + 1)) =
            rest := by
          rw [← List.drop_take, hsplit]
          exact List.drop_left' rfl
        have h := ih (missing - (more.length + 1)) (by omega)
          ((b :: bytes).drop (more.length + 1)) (more.reverse ++ c :: got)
        rw [hlater, List.drop_drop] at h
        have hcount : more.length + 1 ≤ missing := by
          have := congrArg List.length hsplit
          simp only [List.length_take, List.length_append, List.length_cons] at this
          omega
        have hall : (more.reverse ++ c :: got).reverse ++ rest =
            got.reverse ++ (b :: bytes).take missing := by
          rw [hsplit]
          simp
        rw [List.append_nil]
        rwa [hall, Nat.add_sub_cancel' hcount] at h

/-! ## Failures -/

inductive Brittle (fail : IoError → β) : Dialogue β → Prop where
  | done (a : β) : Brittle fail (.done a)
  | flush {next} (he : ∀ e, next (.error e) = .done (fail e)) (h : Brittle fail (next (.ok ()))) :
      Brittle fail (.flush next)
  | write {bytes next} (he : ∀ e, next (.error e) = .done (fail e))
      (hz : next (.ok 0) = .done (fail .writeZero))
      (h : ∀ taken, Brittle fail (next (.ok (taken + 1)))) : Brittle fail (.write bytes next)
  | read {limit next} (he : ∀ e, next (.error e) = .done (fail e))
      (h : ∀ got, Brittle fail (next (.ok got))) : Brittle fail (.read limit next)

theorem Brittle.of_flush {fail : IoError → β} {next : Except IoError Unit → Dialogue β}
    (h : Brittle fail (.flush next)) :
    (∀ e, next (.error e) = .done (fail e)) ∧ Brittle fail (next (.ok ())) := by
  cases h with
  | flush he hok => exact ⟨he, hok⟩

theorem Brittle.of_write {fail : IoError → β} {bytes : Bytes}
    {next : Except IoError Nat → Dialogue β} (h : Brittle fail (.write bytes next)) :
    (∀ e, next (.error e) = .done (fail e)) ∧ next (.ok 0) = .done (fail .writeZero) ∧
      ∀ taken, Brittle fail (next (.ok (taken + 1))) := by
  cases h with
  | write he hz hok => exact ⟨he, hz, hok⟩

theorem Brittle.of_read {fail : IoError → β} {limit : Nat}
    {next : Except IoError Bytes → Dialogue β} (h : Brittle fail (.read limit next)) :
    (∀ e, next (.error e) = .done (fail e)) ∧ ∀ got, Brittle fail (next (.ok got)) := by
  cases h with
  | read he hok => exact ⟨he, hok⟩

theorem Brittle.bind {fail : IoError → β} {fail' : IoError → γ} {d : Dialogue β}
    {f : β → Dialogue γ} (h : Brittle fail d) (he : ∀ e, f (fail e) = .done (fail' e))
    (hf : ∀ a, Brittle fail' (f a)) : Brittle fail' (d.bind f) := by
  induction h with
  | done a => exact hf a
  | flush hfail _ ih => exact .flush (fun e => by rw [hfail, Dialogue.bind, he]) ih
  | write hfail hzero _ ih =>
    exact .write (fun e => by rw [hfail, Dialogue.bind, he]) (by rw [hzero, Dialogue.bind, he]) ih
  | read hfail _ ih => exact .read (fun e => by rw [hfail, Dialogue.bind, he]) ih

theorem brittle_writeAll (bytes : Bytes) : Brittle .error (writeAll bytes) := by
  induction h : bytes.length using Nat.strongRecOn generalizing bytes with
  | _ n ih =>
    unfold writeAll
    split
    · exact .done _
    · rename_i hb
      refine .write (fun _ => rfl) rfl fun taken => ?_
      have := List.length_pos_iff.mpr hb
      exact ih _ (by rw [List.length_drop]; omega) _ rfl

theorem brittle_fill (missing : Nat) (got : Bytes) : Brittle .error (fill missing got) := by
  induction missing using Nat.strongRecOn generalizing got with
  | _ missing ih =>
    unfold fill
    split
    · exact .done _
    · refine .read (fun _ => rfl) fun bytes => ?_
      cases bytes with
      | nil => exact .done _
      | cons b bytes => exact ih _ (by omega) _

end Dialogue

end SealedLink
