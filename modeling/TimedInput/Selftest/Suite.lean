import TimedInput.Selftest.PlaybackCases
import TimedInput.Selftest.TextCases

/-!
# The trials of the library

All cases in their order: texts, scripts, playback.
-/

namespace TimedInput.Selftest

def suite : List TrialCase :=
  textCases ++ scriptCases ++ playbackCases

end TimedInput.Selftest
