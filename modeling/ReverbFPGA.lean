import ReverbFPGA.Lib.Clocked
import ReverbFPGA.Lib.ShiftMemory
import ReverbFPGA.Lib.Signed
import ReverbFPGA.Lib.FixedPoint
import ReverbFPGA.Lib.Rounding
import ReverbFPGA.Lib.Keyed
import ReverbFPGA.Lib.Streams
import ReverbFPGA.Lib.DampedLoop
import ReverbFPGA.Lib.Batched
import ReverbFPGA.Lib.Fifo
import ReverbFPGA.Hardware.DelayLine
import ReverbFPGA.Hardware.DelayLineInv
import ReverbFPGA.Hardware.DelayLinePass
import ReverbFPGA.Hardware.DelayLineRun
import ReverbFPGA.Hardware.ReadCollision
import ReverbFPGA.Hardware.Chain
import ReverbFPGA.Hardware.Filters
import ReverbFPGA.Hardware.EarlyLate
import ReverbFPGA.Hardware.EarlyTaps
import ReverbFPGA.Hardware.Channel
import ReverbFPGA.Hardware.Gains
import ReverbFPGA.Hardware.SampleModel
import ReverbFPGA.Hardware.Mono
import ReverbFPGA.Hardware.Transfer
import ReverbFPGA.Hardware.Comb
import ReverbFPGA.Hardware.CombTail
import ReverbFPGA.Hardware.CombOverflow
import ReverbFPGA.Hardware.AllPass
import ReverbFPGA.Hardware.Narrowing
import ReverbFPGA.Hardware.TickReads
import ReverbFPGA.Hardware.Diagram
import ReverbFPGA.Hardware.Outputs
import ReverbFPGA.Hardware.Onset
import ReverbFPGA.Hardware.Ideal
import ReverbFPGA.Hardware.Accuracy
import ReverbFPGA.Hardware.Superposition
import ReverbFPGA.Hardware.Silence
import ReverbFPGA.Hardware.Forgetting
import ReverbFPGA.Hardware.AudioController
import ReverbFPGA.Hardware.AudioFifos
import ReverbFPGA.Hardware.AudioLane
import ReverbFPGA.Hardware.AudioSystem
import ReverbFPGA.Hardware.CodecWords
import ReverbFPGA.Hardware.DoubleTick
import ReverbFPGA.Hardware.AudioLoop
import ReverbFPGA.Software.App
import ReverbFPGA.Software.MainLoop
import ReverbFPGA.Software.Predelay
import ReverbFPGA.Software.Words
import ReverbFPGA.Software.FloatRuns
import ReverbFPGA.Software.Display
import ReverbFPGA.Software.Bus
import ReverbFPGA.Software.Setup
import ReverbFPGA.System
