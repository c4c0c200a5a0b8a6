import GroupCommit.Log.Basic

/-!
# Logs in words

The one-line description of a log for diagnostics.
-/

namespace GroupCommit

/-- A configuration, field by field. -/
def Config.describe (c : Config) : String :=
  s!"Config \x7b slot_capacity: {c.slotCapacity}, ring_size: {c.ringSize}, "
    ++ s!"min_write_size: {c.minWriteSize}, wait_timeout_ms: {c.waitTimeout} \x7d"

/-- Counters, field by field. -/
def Stats.describe (s : Stats) : String :=
  s!"CommitStatsSnapshot \x7b commits: {s.commits}, full_flushes: {s.fullFlushes}, "
    ++ s!"partial_flushes: {s.earlyFlushes}, direct_writes: {s.directWrites}, "
    ++ s!"bytes_written: {s.bytesWritten} \x7d"

/-- What callers may look at in a log. -/
def Log.describe {W : Type} (log : Log W) : String :=
  s!"GroupCommitter \x7b config: {log.config.describe}, position: {log.position}, "
    ++ s!"poisoned: {log.ring.poisoned}, stats: {log.stats.describe} \x7d"

end GroupCommit
