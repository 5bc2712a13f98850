import BurstBuffer.Source.Write

/-!
# Block writes with WRITE_DEBUG

The other loop of nvm_durable_write. Its body is the same block step. The `local_count`
of the body hides the variable of that name that the header of the loop reads.
-/
namespace BurstBuffer.Source

variable {C : CuckoohashMap} {N : Nat}

/-- The loop; `localCount` is the outer variable. -/
def writeDebugLoop (v : VolumeIdx) (buf : Nat → UInt8) (lbnEnd localCount : Nat) :
    Nat → (lbn localOffset count bytesWritten : Nat) → State C N → Option (Nat × State C N)
  | 0, _, _, _, _, _ => none
  | fuel + 1, lbn, localOffset, count, bytesWritten, s =>
    if lbn ≤ lbnEnd then do
      let blockCount :=
        if count > blockSize - localOffset then blockSize - localOffset else count % 2 ^ 32
      let (writeCount, s) ← writeBlock v lbn localOffset buf blockCount s
      writeDebugLoop v buf lbnEnd localCount fuel ((lbn + 1) % 2 ^ 32) 0
        ((count + 2 ^ 64 - localCount) % 2 ^ 64) (bytesWritten + writeCount) s
    else some (bytesWritten, s)

/-- nvm_durable_write for an offset of at least 0, compiled with WRITE_DEBUG. -/
def nvmDurableWriteDebug (fuel : Nat) (vid offset : Nat) (buf : Nat → UInt8) (count : Nat)
    (s : State C N) : Option (Nat × State C N) := do
  let (v, s) ← getVolumeEntryIdx vid s
  let lbnStart := offset / blockSize % 2 ^ 32
  let lbnEnd := (offset + count + 2 ^ 64 - 1) % 2 ^ 64 / blockSize % 2 ^ 32
  let localOffset := offset % blockSize
  let localCount := 0
  writeDebugLoop v buf lbnEnd localCount fuel lbnStart localOffset count 0 s

end BurstBuffer.Source
