import At32Foc.Lib.Run
import At32Foc.Lib.IncrementalPI
import At32Foc.Lib.PIForgetting
import At32Foc.Lib.Modulation
import At32Foc.Lib.ModulationContinuity
import At32Foc.Lib.Circle
import At32Foc.Lib.PolyBound
import At32Foc.Lib.TrigTaylor
import At32Foc.Lib.LowPass
import At32Foc.Lib.Rotation
import At32Foc.Lib.ThreePhase
import At32Foc.Lib.XFloat
import At32Foc.Lib.CString
import At32Foc.Lib.Dma
import At32Foc.Lib.CMemory
import At32Foc.Lib.Framing
import At32Foc.Lib.SerialPort
import At32Foc.Lib.DownCounter
import At32Foc.Lib.BitField
import At32Foc.Lib.CentreAlignedPwm
import At32Foc.FocState
import At32Foc.SVpwm
import At32Foc.FastSin
import At32Foc.FastSinAccuracy
import At32Foc.Control
import At32Foc.Saturation
import At32Foc.Forgetting
import At32Foc.Foc
import At32Foc.ParkTransform
import At32Foc.VoltageSynthesis
import At32Foc.StartupModulation
import At32Foc.Main
import At32Foc.SingleMotor
import At32Foc.MotorSymmetry
import At32Foc.ActuatorSafety
import At32Foc.PwmOutput
import At32Foc.ModulationRange
import At32Foc.Standstill
import At32Foc.CurrentOffset
import At32Foc.Kirchhoff
import At32Foc.OffsetAveraging
import At32Foc.MeasuredCurrents
import At32Foc.ZeroCalibration
import At32Foc.HostPoison
import At32Foc.FiniteHost
import At32Foc.Reception
import At32Foc.Noninterference
import At32Foc.Usart
import At32Foc.SpeedEstimation
import At32Foc.TimerTick
import At32Foc.MeasuredRange
import At32Foc.CurrentMeasurement
import At32Foc.Parameters
import At32Foc.MalformedCommands
import At32Foc.Staging
import At32Foc.Configuration
import At32Foc.MessageResidue
import At32Foc.ParserBounds
import At32Foc.ReceiveRace
import At32Foc.Telemetry
import At32Foc.TelemetryRace
import At32Foc.Printing
import At32Foc.PrintingLosses
import At32Foc.Can
import At32Foc.EncoderTransaction
import At32Foc.Commutation
import At32Foc.Interrupts
import At32Foc.InterruptSafety
import At32Foc.HandlerReturn
import At32Foc.Ports
import At32Foc.TelemetrySampling
import At32Foc.Delay
