import Aegir.Model.Console

/-!
# Commands from the control socket

The clients send the characters of a command without a NUL, and `remotec` takes the data of the message
for a C string. It pushes the command exactly when the memory behind the message begins with a NUL
(`remotecPush_iff`); otherwise what lies there belongs to the command.
-/

namespace Aegir

variable {cmd adjacent : List Char}

@[simp] theorem ControlClient.send_eq (client : ControlClient) : client.send cmd = cmd := by
  cases client <;> simp [send, zmqSend, List.append_assoc]

/-- What lies behind a message up to the first NUL is pushed with it. -/
theorem remotecPush_eq (h : '\x00' ∉ cmd) :
    remotecPush cmd adjacent = (stringAt adjacent).map (cmd ++ ·) := by
  rw [remotecPush, stringAt, stringAt, cstring_append h]
  by_cases hn : '\x00' ∈ adjacent
  · rw [if_pos (List.mem_append_right _ hn), if_pos hn, Option.map_some]
  · rw [if_neg (by simp [h, hn]), if_neg hn, Option.map_none]

theorem stringAt_eq_nil : stringAt adjacent = some [] ↔ adjacent.head? = some '\x00' := by
  cases adjacent with
  | nil => simp [stringAt]
  | cons c l =>
    by_cases hc : c = '\x00'
    · simp [stringAt, cstring, hc]
    · simp [stringAt, cstring, hc]

/-- The command that is pushed is the one that was sent if and only if the message is followed by a
NUL; and two receptions of the message push the same if and only if the memory behind it begins with
the same string. -/
theorem remotecPush_iff (client : ControlClient) (h : '\x00' ∉ cmd) :
    (∀ adjacent, remotecPush (client.send cmd) adjacent = some cmd ↔
      adjacent.head? = some '\x00') ∧
    ∀ adjacent adjacent', remotecPush (client.send cmd) adjacent =
        remotecPush (client.send cmd) adjacent' ↔ stringAt adjacent = stringAt adjacent' := by
  have hinj : Function.Injective (Option.map (cmd ++ ·)) :=
    Option.map_injective (List.append_right_injective cmd)
  refine ⟨fun adjacent => ?_, fun adjacent adjacent' => ?_⟩
  · rw [ControlClient.send_eq, remotecPush_eq h, ← stringAt_eq_nil]
    exact ⟨fun heq => hinj (heq.trans (by simp)), fun heq => by rw [heq]; simp⟩
  · rw [ControlClient.send_eq, remotecPush_eq h, remotecPush_eq h]
    exact hinj.eq_iff

theorem remotecPush_iff_quit :
    remotecPush (ControlClient.aegirDevice.send (chars "quit")) ['\x00', '7'] =
      some (chars "quit") :=
  ((remotecPush_iff .aegirDevice (by decide +kernel)).1 ['\x00', '7']).mpr rfl

/-- The digit that a longer command has left behind the message becomes a digit of the frequency. -/
theorem not_remotecPush :
    (¬ ∀ client cmd adjacent, '\x00' ∉ cmd →
      remotecPush (ControlClient.send cmd client) adjacent = some cmd) ∧
    ¬ ∀ client cmd adjacent adjacent', '\x00' ∉ cmd →
      remotecPush (ControlClient.send cmd client) adjacent = remotecPush (client.send cmd) adjacent' := by
  have hcmd : '\x00' ∉ chars "tuningfrequency 100000000" := by decide +kernel
  refine ⟨fun h => ?_, fun h => ?_⟩
  · exact absurd (h .aegirSDRImpl _ ['5', '\x00'] hcmd) (by decide +kernel)
  · exact absurd (h .aegirSDRImpl _ ['5', '\x00'] ['\x00'] hcmd) (by decide +kernel)

end Aegir
